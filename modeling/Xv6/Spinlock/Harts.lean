import Xv6.Spinlock

/-!
# Spinlocks across harts

`spinlock.c`'s `acquire` and `release` on any number of harts sharing the locks. Each hart
keeps its `struct cpu` and, as ghost state, the locks it holds and its bare `push_off`s, as in
the one-hart model. `acquire`'s test-and-set loop and `release`'s two stores are atomic steps of
their own, so every interleaving of the harts is covered. `harts_exclusion` shows that each lock
has at most one owner, that `locked` says whether it has one, and that `holding` is exact;
`harts_nesting` that each hart between calls is in a state of the one-hart model, so the nesting
facts of `Xv6.Spinlock` hold on every hart.
-/

namespace Xv6.Spinlock

variable {NCPU : Nat}

/-- `struct spinlock`'s `locked` and `cpu`, the hart by its number. -/
structure LockState (NCPU : Nat) where
  locked : Bool
  cpu : Option (Fin NCPU)
  deriving DecidableEq

/-- `initlock`: not locked, no hart. -/
def initlock : LockState NCPU := ⟨false, none⟩

/-- Where a hart is: between calls. -/
inductive Pc
  | run
  | spin (lk : Lock)
  | got (lk : Lock)
  | drop (lk : Lock)
  deriving DecidableEq

/-- The harts and the locks. -/
structure Harts (NCPU : Nat) where
  hart : Fin NCPU → Hart
  pc : Fin NCPU → Pc
  locks : Lock → LockState NCPU

/-- A hart's next atomic step: begin `acquire(lk)` or `release(lk)`, or run other code's `push_off`,
`pop_off`, `intr_on` or `intr_off`, all between calls; or go on inside its call. -/
inductive Event
  | acquire (lk : Lock)
  | release (lk : Lock)
  | pushOff
  | popOff
  | intrOn
  | intrOff
  | next

namespace Harts

def setHart (s : Harts NCPU) (c : Fin NCPU) (h : Hart) : Harts NCPU :=
  { s with hart := Function.update s.hart c h }

def setPc (s : Harts NCPU) (c : Fin NCPU) (pc : Pc) : Harts NCPU :=
  { s with pc := Function.update s.pc c pc }

def setLock (s : Harts NCPU) (lk : Lock) (l : LockState NCPU) : Harts NCPU :=
  { s with locks := Function.update s.locks lk l }

/-- `holding(lk)` on hart `c`: `lk->locked && lk->cpu == mycpu()`. -/
def holding (s : Harts NCPU) (c : Fin NCPU) (lk : Lock) : Bool :=
  (s.locks lk).locked && (s.locks lk).cpu == some c

/-- `acquire(lk)` up to its loop: `push_off()`, then the check that the hart does not hold it. -/
def acquire (s : Harts NCPU) (c : Fin NCPU) (lk : Lock) : Except String (Harts NCPU) :=
  let s := s.setHart c { s.hart c with cpu := pushOff (s.hart c).cpu }
  if s.holding c lk then .error "acquire" else .ok (s.setPc c (.spin lk))

/-- `release(lk)` up to its store of `locked`: the check, then `lk->cpu = 0`. -/
def release (s : Harts NCPU) (c : Fin NCPU) (lk : Lock) : Except String (Harts NCPU) :=
  if !s.holding c lk then .error "release"
  else .ok (((s.setLock lk { s.locks lk with cpu := none }).setHart c
    { s.hart c with held := (s.hart c).held.erase lk }).setPc c (.drop lk))

def step (s : Harts NCPU) (c : Fin NCPU) : Event → Except String (Harts NCPU)
  | .acquire lk => s.acquire c lk
  | .release lk => s.release c lk
  | .pushOff => (Spinlock.step (s.hart c) .pushOff).map (s.setHart c)
  | .popOff => (Spinlock.step (s.hart c) .popOff).map (s.setHart c)
  | .intrOn => (Spinlock.step (s.hart c) .intrOn).map (s.setHart c)
  | .intrOff => (Spinlock.step (s.hart c) .intrOff).map (s.setHart c)
  | .next =>
    match s.pc c with
    | .run => .ok s
    | .spin lk =>
      -- `__sync_lock_test_and_set(&lk->locked, 1)`: the loop goes on while it returns 1
      if (s.locks lk).locked then .ok s
      else .ok ((s.setLock lk { s.locks lk with locked := true }).setPc c (.got lk))
    | .got lk =>
      -- `lk->cpu = mycpu()`
      .ok (((s.setLock lk { s.locks lk with cpu := some c }).setHart c
        { s.hart c with held := lk :: (s.hart c).held }).setPc c .run)
    | .drop lk =>
      -- `__sync_lock_release(&lk->locked)`, then `pop_off()`
      (popOff (s.hart c).cpu).map fun cpu =>
        ((s.setLock lk { s.locks lk with locked := false }).setHart c { s.hart c with cpu }).setPc c .run

/-- The callers' side of the contract. -/
def Allowed (s : Harts NCPU) (c : Fin NCPU) : Event → Prop
  | .acquire _ | .release _ | .pushOff | .intrOff => s.pc c = .run
  | .popOff => s.pc c = .run ∧ 0 < (s.hart c).bare
  | .intrOn => s.pc c = .run ∧ (s.hart c).cpu.noff = 0
  | .next => s.pc c ≠ .run

instance (s : Harts NCPU) (c : Fin NCPU) : (e : Event) → Decidable (s.Allowed c e)
  | .acquire _ | .release _ | .pushOff | .intrOff => inferInstanceAs (Decidable (s.pc c = .run))
  | .popOff => inferInstanceAs (Decidable (s.pc c = .run ∧ 0 < (s.hart c).bare))
  | .intrOn => inferInstanceAs (Decidable (s.pc c = .run ∧ (s.hart c).cpu.noff = 0))
  | .next => inferInstanceAs (Decidable (s.pc c ≠ .run))

/-- From boot, with every lock from `initlock`, any interleaving of the harts' steps. -/
inductive Reachable : Harts NCPU → Prop
  | init (intena intr : Fin NCPU → Bool) :
      Reachable ⟨fun c => ⟨⟨0, intena c, intr c⟩, [], 0⟩, fun _ => .run, fun _ => initlock⟩
  | step {s s' : Harts NCPU} {c : Fin NCPU} {e : Event} :
      Reachable s → s.Allowed c e → s.step c e = .ok s' → Reachable s'

/-- Hart `c` owns `lk`: its test-and-set on `lk` returned 0 and its `release` has not yet stored 0. -/
def Owns (s : Harts NCPU) (c : Fin NCPU) (lk : Lock) : Prop :=
  lk ∈ (s.hart c).held ∨ s.pc c = .got lk ∨ s.pc c = .drop lk

/-- What hart `c`'s own record is: between calls, a state of the one-hart model. -/
def Settled (s : Harts NCPU) (c : Fin NCPU) : Prop :=
  match s.pc c with
  | .run => Spinlock.Reachable (s.hart c)
  | .spin lk | .got lk =>
    ∃ h, Spinlock.Reachable h ∧ lk ∉ h.held ∧ s.hart c = { h with cpu := pushOff h.cpu }
  | .drop lk => ∃ h, Spinlock.Reachable h ∧ lk ∈ h.held ∧ s.hart c = { h with held := h.held.erase lk }

/-- The invariant of the harts: each is settled. -/
structure Inv (s : Harts NCPU) : Prop where
  settled : ∀ c, s.Settled c
  cpu_iff : ∀ lk c, (s.locks lk).cpu = some c ↔ lk ∈ (s.hart c).held
  locked_iff : ∀ lk, (s.locks lk).locked = true ↔ ∃ c, s.Owns c lk
  unique : ∀ lk c c', s.Owns c lk → s.Owns c' lk → c = c'

/-! ### Updates -/

variable {s : Harts NCPU} {c c' : Fin NCPU} {h : Hart} {pc : Pc} {lk lk' : Lock} {l : LockState NCPU}

@[simp] theorem setHart_hart_self : (s.setHart c h).hart c = h := Function.update_same _ _ _
@[simp] theorem setHart_hart_of_ne (ne : c' ≠ c) : (s.setHart c h).hart c' = s.hart c' :=
  Function.update_noteq ne _ _
@[simp] theorem setHart_pc : (s.setHart c h).pc = s.pc := rfl
@[simp] theorem setHart_locks : (s.setHart c h).locks = s.locks := rfl
@[simp] theorem setPc_pc_self : (s.setPc c pc).pc c = pc := Function.update_same _ _ _
@[simp] theorem setPc_pc_of_ne (ne : c' ≠ c) : (s.setPc c pc).pc c' = s.pc c' := Function.update_noteq ne _ _
@[simp] theorem setPc_hart : (s.setPc c pc).hart = s.hart := rfl
@[simp] theorem setPc_locks : (s.setPc c pc).locks = s.locks := rfl
@[simp] theorem setLock_locks_self : (s.setLock lk l).locks lk = l := Function.update_same _ _ _
@[simp] theorem setLock_locks_of_ne (ne : lk' ≠ lk) : (s.setLock lk l).locks lk' = s.locks lk' :=
  Function.update_noteq ne _ _
@[simp] theorem setLock_hart : (s.setLock lk l).hart = s.hart := rfl
@[simp] theorem setLock_pc : (s.setLock lk l).pc = s.pc := rfl

/-! ### One step -/

variable {s' : Harts NCPU}

theorem settled_frame (hart : s'.hart c = s.hart c) (pc : s'.pc c = s.pc c) :
    s'.Settled c ↔ s.Settled c := by
  simp only [Settled, hart, pc]

theorem owns_frame (hart : s'.hart c = s.hart c) (pc : s'.pc c = s.pc c) :
    s'.Owns c lk ↔ s.Owns c lk := by
  simp only [Owns, hart, pc]

theorem Inv.of_owners (inv : s.Inv) (frame : ∀ c', c' ≠ c → s'.hart c' = s.hart c' ∧ s'.pc c' = s.pc c')
    (owns : ∀ lk, s'.Owns c lk ↔ s.Owns c lk) (locked : ∀ lk, (s'.locks lk).locked = (s.locks lk).locked)
    (cpu_iff : ∀ lk c', (s'.locks lk).cpu = some c' ↔ lk ∈ (s'.hart c').held)
    (settled : s'.Settled c) : s'.Inv := by
  have ownsAll (c' : Fin NCPU) (lk : Lock) : s'.Owns c' lk ↔ s.Owns c' lk := by
    by_cases same : c' = c
    · subst same; exact owns lk
    · exact owns_frame (frame c' same).1 (frame c' same).2
  refine ⟨fun c' => ?_, cpu_iff, fun lk => ?_, fun lk c₁ c₂ => ?_⟩
  · by_cases same : c' = c
    · subst same; exact settled
    · exact (settled_frame (frame c' same).1 (frame c' same).2).mpr (inv.settled c')
  · simp only [locked, ownsAll]; exact inv.locked_iff lk
  · simp only [ownsAll]; exact inv.unique lk c₁ c₂

theorem Inv.reach_run (inv : s.Inv) (run : s.pc c = .run) : Spinlock.Reachable (s.hart c) := by
  simpa only [Settled, run] using inv.settled c

theorem Inv.cpu_iff_of_same (inv : s.Inv) (locks : ∀ lk, (s'.locks lk).cpu = (s.locks lk).cpu)
    (held : ∀ c, (s'.hart c).held = (s.hart c).held) (lk : Lock) (c : Fin NCPU) :
    (s'.locks lk).cpu = some c ↔ lk ∈ (s'.hart c).held := by
  rw [locks, held]; exact inv.cpu_iff lk c

theorem Inv.acquire (inv : s.Inv) (run : s.pc c = .run) (ok : s.acquire c lk = .ok s') : s'.Inv := by
  dsimp only [Harts.acquire] at ok
  split at ok
  · cases ok
  rename_i free
  cases ok
  have notHeld : lk ∉ (s.hart c).held := fun held => by
    have locked := (inv.locked_iff lk).mpr ⟨c, .inl held⟩
    simp [holding, locked, (inv.cpu_iff lk c).mpr held] at free
  have held (c' : Fin NCPU) : (((s.setHart c { s.hart c with cpu := pushOff (s.hart c).cpu }).setPc c
      (.spin lk)).hart c').held = (s.hart c').held := by
    by_cases same : c' = c
    · subst same; simp
    · simp [same]
  refine inv.of_owners (fun c' (ne : c' ≠ c) => by simp [ne]) (fun lk' => ?_) (fun _ => rfl)
    (inv.cpu_iff_of_same (fun _ => rfl) held) ?_
  · simp [Owns, run]
  · simp only [Settled, setPc_pc_self, setPc_hart, setHart_hart_self]
    exact ⟨_, inv.reach_run run, notHeld, rfl⟩

theorem Inv.quiet {op : Op} (inv : s.Inv) (run : s.pc c = .run) {h' : Hart}
    (ok : Spinlock.step (s.hart c) op = .ok h') (allowed : Spinlock.Allowed (s.hart c) op)
    (quiet : h'.held = (s.hart c).held) :
    (s.setHart c h').Inv := by
  have held (c' : Fin NCPU) : ((s.setHart c h').hart c').held = (s.hart c').held := by
    by_cases same : c' = c
    · subst same; simp [quiet]
    · simp [same]
  refine inv.of_owners (fun c' (ne : c' ≠ c) => by simp [ne]) (fun lk' => ?_) (fun _ => rfl)
    (inv.cpu_iff_of_same (fun _ => rfl) held) ?_
  · simp [Owns, quiet]
  · simp only [Settled, setHart_pc, run, setHart_hart_self]
    exact (inv.reach_run run).step allowed ok

theorem Inv.release (inv : s.Inv) (run : s.pc c = .run) (ok : s.release c lk = .ok s') : s'.Inv := by
  dsimp only [Harts.release] at ok
  split at ok
  · cases ok
  rename_i holds
  simp only [Except.ok.injEq] at ok
  have reach := inv.reach_run run
  have both : (s.locks lk).locked = true ∧ (s.locks lk).cpu = some c := by simpa [holding] using holds
  have held : lk ∈ (s.hart c).held := (inv.cpu_iff lk c).mp both.2
  have gone : lk ∉ (s.hart c).held.erase lk := (nesting_reachable reach).nodup.not_mem_erase
  have hartC : s'.hart c = { s.hart c with held := (s.hart c).held.erase lk } := by rw [← ok]; simp
  have pcC : s'.pc c = .drop lk := by rw [← ok]; simp
  have frame (c' : Fin NCPU) (ne : c' ≠ c) : s'.hart c' = s.hart c' ∧ s'.pc c' = s.pc c' := by
    rw [← ok]; simp [ne]
  have lockLk : s'.locks lk = { s.locks lk with cpu := none } := by rw [← ok]; simp
  have lockO (lk' : Lock) (ne : lk' ≠ lk) : s'.locks lk' = s.locks lk' := by rw [← ok]; simp [ne]
  refine inv.of_owners frame (fun lk' => ?_) (fun lk' => ?_) (fun lk' c' => ?_) ?_
  · simp only [Owns, hartC, pcC, run]
    by_cases same : lk' = lk
    · subst lk'; simp [held]
    · simp [List.mem_erase_of_ne same, same, Ne.symm same]
  · by_cases same : lk' = lk
    · subst lk'; rw [lockLk]
    · rw [lockO lk' same]
  · by_cases same : lk' = lk
    · subst lk'
      rw [lockLk]
      refine ⟨fun eq => (by cases eq), fun mem => absurd mem ?_⟩
      by_cases other : c' = c
      · subst c'; rw [hartC]; exact gone
      · rw [(frame c' other).1]
        exact fun mem => other (inv.unique lk c' c (.inl mem) (.inl held))
    · rw [lockO lk' same]
      by_cases other : c' = c
      · subst c'; rw [hartC, List.mem_erase_of_ne same]; exact inv.cpu_iff lk' c
      · rw [(frame c' other).1]; exact inv.cpu_iff lk' c'
  · simp only [Settled, pcC, hartC]
    exact ⟨_, reach, held, rfl⟩

theorem Inv.swap (inv : s.Inv) (spin : s.pc c = .spin lk) (free : (s.locks lk).locked = false)
    (moved : s' = (s.setLock lk { s.locks lk with locked := true }).setPc c (.got lk)) : s'.Inv := by
  have hart (c' : Fin NCPU) : s'.hart c' = s.hart c' := by rw [moved]; simp
  have pcC : s'.pc c = .got lk := by rw [moved]; simp
  have pcO (c' : Fin NCPU) (ne : c' ≠ c) : s'.pc c' = s.pc c' := by rw [moved]; simp [ne]
  have lockLk : s'.locks lk = { s.locks lk with locked := true } := by rw [moved]; simp
  have lockO (lk' : Lock) (ne : lk' ≠ lk) : s'.locks lk' = s.locks lk' := by rw [moved]; simp [ne]
  have noOwner (c' : Fin NCPU) : ¬s.Owns c' lk := fun owns => by
    rw [(inv.locked_iff lk).mpr ⟨c', owns⟩] at free; cases free
  have owns (c' : Fin NCPU) (lk' : Lock) : s'.Owns c' lk' ↔ s.Owns c' lk' ∨ (c' = c ∧ lk' = lk) := by
    by_cases same : c' = c
    · subst c'; simp [Owns, hart, pcC, spin, eq_comm]
    · simp only [owns_frame (hart c') (pcO c' same), same, false_and, or_false]
  refine ⟨fun c' => ?_, fun lk' c' => ?_, fun lk' => ?_, fun lk' c₁ c₂ o₁ o₂ => ?_⟩
  · by_cases same : c' = c
    · subst c'; simpa only [Settled, pcC, hart, spin] using inv.settled c
    · exact (settled_frame (hart c') (pcO c' same)).mpr (inv.settled c')
  · have cpu : (s'.locks lk').cpu = (s.locks lk').cpu := by
      by_cases same : lk' = lk
      · subst lk'; rw [lockLk]
      · rw [lockO lk' same]
    rw [cpu, hart]; exact inv.cpu_iff lk' c'
  · by_cases same : lk' = lk
    · subst lk'; simp only [lockLk, true_iff]; exact ⟨c, (owns c lk).mpr (.inr ⟨rfl, rfl⟩)⟩
    · simp only [lockO lk' same, owns, same, and_false, or_false]; exact inv.locked_iff lk'
  · rw [owns] at o₁ o₂
    by_cases same : lk' = lk
    · subst lk'
      obtain ⟨rfl, -⟩ := o₁.resolve_left (noOwner c₁)
      obtain ⟨rfl, -⟩ := o₂.resolve_left (noOwner c₂)
      rfl
    · simp only [same, and_false, or_false] at o₁ o₂; exact inv.unique lk' c₁ c₂ o₁ o₂

theorem Inv.record (inv : s.Inv) (got : s.pc c = .got lk)
    (moved : s' = ((s.setLock lk { s.locks lk with cpu := some c }).setHart c
      { s.hart c with held := lk :: (s.hart c).held }).setPc c .run) : s'.Inv := by
  have hartC : s'.hart c = { s.hart c with held := lk :: (s.hart c).held } := by rw [moved]; simp
  have pcC : s'.pc c = .run := by rw [moved]; simp
  have frame (c' : Fin NCPU) (ne : c' ≠ c) : s'.hart c' = s.hart c' ∧ s'.pc c' = s.pc c' := by
    rw [moved]; simp [ne]
  have lockLk : s'.locks lk = { s.locks lk with cpu := some c } := by rw [moved]; simp
  have lockO (lk' : Lock) (ne : lk' ≠ lk) : s'.locks lk' = s.locks lk' := by rw [moved]; simp [ne]
  refine inv.of_owners frame (fun lk' => ?_) (fun lk' => ?_) (fun lk' c' => ?_) ?_
  · simp only [Owns, hartC, pcC, got, List.mem_cons, Pc.got.injEq, reduceCtorEq, or_false]
    rw [eq_comm, or_comm]
  · by_cases same : lk' = lk
    · subst lk'; rw [lockLk]
    · rw [lockO lk' same]
  · by_cases same : lk' = lk
    · subst lk'
      rw [lockLk]
      by_cases other : c' = c
      · subst c'; simp [hartC]
      · rw [(frame c' other).1]
        simp only [Option.some.injEq, Ne.symm other, false_iff]
        exact fun mem => other (inv.unique lk c' c (.inl mem) (.inr (.inl got)))
    · rw [lockO lk' same]
      by_cases other : c' = c
      · subst c'; rw [hartC, List.mem_cons, or_iff_right same]; exact inv.cpu_iff lk' c
      · rw [(frame c' other).1]; exact inv.cpu_iff lk' c'
  · have settled := inv.settled c
    simp only [Settled, got] at settled
    obtain ⟨h, reach, free, hc⟩ := settled
    simp only [Settled, pcC, hartC, hc]
    exact @Spinlock.Reachable.step _ _ (.acquire lk) reach free (acquire_free free)

theorem Inv.unlock (inv : s.Inv) (drop : s.pc c = .drop lk) {cpu : Cpu} (popped : popOff (s.hart c).cpu = .ok cpu)
    (moved : s' = ((s.setLock lk { s.locks lk with locked := false }).setHart c
      { s.hart c with cpu }).setPc c .run) : s'.Inv := by
  have settled := inv.settled c
  simp only [Settled, drop] at settled
  obtain ⟨h, reach, heldH, hc⟩ := settled
  have gone : lk ∉ (s.hart c).held := by rw [hc]; exact (nesting_reachable reach).nodup.not_mem_erase
  have hartC : s'.hart c = { s.hart c with cpu } := by rw [moved]; simp
  have pcC : s'.pc c = .run := by rw [moved]; simp
  have frame (c' : Fin NCPU) (ne : c' ≠ c) : s'.hart c' = s.hart c' ∧ s'.pc c' = s.pc c' := by
    rw [moved]; simp [ne]
  have lockLk : s'.locks lk = { s.locks lk with locked := false } := by rw [moved]; simp
  have lockO (lk' : Lock) (ne : lk' ≠ lk) : s'.locks lk' = s.locks lk' := by rw [moved]; simp [ne]
  have owns (c' : Fin NCPU) (lk' : Lock) : s'.Owns c' lk' ↔ s.Owns c' lk' ∧ ¬(c' = c ∧ lk' = lk) := by
    by_cases same : c' = c
    · subst c'
      simp only [Owns, hartC, pcC, drop, true_and]
      by_cases lks : lk' = lk
      · subst lk'; simp [gone]
      · simp [lks, Ne.symm lks]
    · simp only [owns_frame (frame c' same).1 (frame c' same).2, same, false_and, not_false_eq_true, and_true]
  have ownsC : s.Owns c lk := .inr (.inr drop)
  refine ⟨fun c' => ?_, fun lk' c' => ?_, fun lk' => ?_, fun lk' c₁ c₂ o₁ o₂ => ?_⟩
  · by_cases same : c' = c
    · subst c'
      have stepped : Spinlock.step h (.release lk) = .ok { h with cpu, held := h.held.erase lk } := by
        show Spinlock.release h lk = _
        rw [release_held heldH, show h.cpu = (s.hart c).cpu by rw [hc], popped]; rfl
      simp only [Settled, pcC, hartC, hc]
      exact @Spinlock.Reachable.step _ _ (.release lk) reach heldH stepped
    · exact (settled_frame (frame c' same).1 (frame c' same).2).mpr (inv.settled c')
  · have cpuL : (s'.locks lk').cpu = (s.locks lk').cpu := by
      by_cases same : lk' = lk
      · subst lk'; rw [lockLk]
      · rw [lockO lk' same]
    have heldC : (s'.hart c').held = (s.hart c').held := by
      by_cases same : c' = c
      · subst c'; rw [hartC]
      · rw [(frame c' same).1]
    rw [cpuL, heldC]; exact inv.cpu_iff lk' c'
  · by_cases same : lk' = lk
    · subst lk'
      simp only [lockLk, owns, and_true, Bool.false_eq_true, false_iff, not_exists, not_and, not_not]
      exact fun c' owns => inv.unique lk c' c owns ownsC
    · simp only [lockO lk' same, owns, same, and_false, not_false_eq_true, and_true]
      exact inv.locked_iff lk'
  · exact inv.unique lk' c₁ c₂ ((owns c₁ lk').mp o₁).1 ((owns c₂ lk').mp o₂).1

theorem inv_init (intena intr : Fin NCPU → Bool) :
    Inv (⟨fun c => ⟨⟨0, intena c, intr c⟩, [], 0⟩, fun _ => .run, fun _ => initlock⟩ : Harts NCPU) where
  settled _ := .init _ _
  cpu_iff _ _ := by simp [initlock]
  locked_iff _ := by simp [initlock, Owns]
  unique _ _ _ owns := by simp [Owns] at owns

theorem Inv.step (inv : s.Inv) {e : Event} (allowed : s.Allowed c e) (ok : s.step c e = .ok s') : s'.Inv := by
  cases e with
  | acquire lk => exact inv.acquire allowed ok
  | release lk => exact inv.release allowed ok
  | pushOff => cases ok; exact inv.quiet allowed (show Spinlock.step _ .pushOff = .ok _ from rfl) trivial rfl
  | intrOff => cases ok; exact inv.quiet allowed (show Spinlock.step _ .intrOff = .ok _ from rfl) trivial rfl
  | intrOn => cases ok; exact inv.quiet allowed.1 (show Spinlock.step _ .intrOn = .ok _ from rfl) allowed.2 rfl
  | popOff =>
    cases popped : popOff (s.hart c).cpu with
    | error => simp [Harts.step, Spinlock.step, popped, Except.map] at ok
    | ok cpu =>
      simp only [Harts.step, Spinlock.step, popped, Except.map, Except.ok.injEq] at ok
      subst ok
      exact inv.quiet allowed.1 (show Spinlock.step _ .popOff = .ok _ by simp [Spinlock.step, popped]; rfl)
        allowed.2 rfl
  | next =>
    simp only [Harts.step] at ok
    split at ok
    · exact absurd ‹_› allowed
    · rename_i lk spin
      split at ok
      · cases ok; exact inv
      · rename_i free
        exact inv.swap spin (by simpa using free) (Except.ok.inj ok).symm
    · exact inv.record ‹_› (Except.ok.inj ok).symm
    · rename_i lk drop
      cases popped : popOff (s.hart c).cpu with
      | error => simp [popped, Except.map] at ok
      | ok cpu =>
        simp only [popped, Except.map, Except.ok.injEq] at ok
        exact inv.unlock drop popped ok.symm

theorem Reachable.inv (reach : s.Reachable) : s.Inv := by
  induction reach with
  | init => exact inv_init _ _
  | step _ allowed ok inv => exact inv.step allowed ok

/-! ### What every hart sees -/

theorem Inv.holding_iff (inv : s.Inv) : s.holding c lk = true ↔ lk ∈ (s.hart c).held := by
  simp only [holding, Bool.and_eq_true, beq_iff_eq]
  exact ⟨fun held => (inv.cpu_iff lk c).mp held.2,
    fun held => ⟨(inv.locked_iff lk).mpr ⟨c, .inl held⟩, (inv.cpu_iff lk c).mpr held⟩⟩

theorem Inv.nesting (inv : s.Inv) (c : Fin NCPU) :
    (s.hart c).cpu.noff = (s.hart c).held.length + (s.hart c).bare + (if s.pc c = .run then 0 else 1) ∧
    (0 < (s.hart c).cpu.noff → (s.hart c).cpu.intr = false) := by
  have settled := inv.settled c
  cases pc : s.pc c with
  | run =>
    simp only [Settled, pc] at settled
    obtain ⟨count, -, off⟩ := nesting_reachable settled
    simp only [if_true, Int.add_zero]
    exact ⟨count, off⟩
  | spin lk | got lk =>
    simp only [Settled, pc] at settled
    obtain ⟨h, reach, -, hc⟩ := settled
    obtain ⟨count, -, -⟩ := nesting_reachable reach
    simp only [hc, reduceCtorEq, if_false, pushOff_eq]
    exact ⟨by omega, fun _ => trivial⟩
  | drop lk =>
    simp only [Settled, pc] at settled
    obtain ⟨h, reach, mem, hc⟩ := settled
    obtain ⟨count, -, off⟩ := nesting_reachable reach
    have shrink := List.length_erase_of_mem mem
    have pos := List.length_pos_of_mem mem
    simp only [hc, reduceCtorEq, if_false, shrink]
    exact ⟨by omega, off⟩

theorem Inv.step_ok (inv : s.Inv) {e : Event} (allowed : s.Allowed c e) :
    (∃ s', s.step c e = .ok s') ∨ (∃ lk, e = .acquire lk ∧ lk ∈ (s.hart c).held) ∨
      (∃ lk, e = .release lk ∧ lk ∉ (s.hart c).held) := by
  cases e with
  | acquire lk =>
    by_cases held : lk ∈ (s.hart c).held
    · exact .inr (.inl ⟨lk, rfl, held⟩)
    · have free : s.holding c lk = false := by simpa using mt inv.holding_iff.mp held
      exact .inl ⟨_, by simp only [Harts.step, Harts.acquire, holding] at free ⊢; simp [free]; rfl⟩
  | release lk =>
    by_cases held : lk ∈ (s.hart c).held
    · exact .inl ⟨_, by simp only [Harts.step, Harts.release, inv.holding_iff.mpr held]; rfl⟩
    · exact .inr (.inr ⟨lk, rfl, held⟩)
  | pushOff | intrOn | intrOff => exact .inl ⟨_, rfl⟩
  | popOff =>
    obtain ⟨h', ok, -⟩ := Spinlock.step_ok (nesting_reachable (inv.reach_run allowed.1))
      (show Spinlock.Allowed (s.hart c) .popOff from allowed.2)
    exact .inl ⟨_, by simp only [Harts.step, ok]; rfl⟩
  | next =>
    refine .inl ?_
    have settled := inv.settled c
    cases pc : s.pc c with
    | run => exact absurd pc allowed
    | spin lk => simp only [Harts.step, pc]; split <;> exact ⟨_, rfl⟩
    | got lk => simp only [Harts.step, pc]; exact ⟨_, rfl⟩
    | drop lk =>
      simp only [Settled, pc] at settled
      obtain ⟨h, reach, mem, hc⟩ := settled
      obtain ⟨h', ok, -⟩ := Spinlock.step_ok (nesting_reachable reach) (show Spinlock.Allowed h (.release lk) from mem)
      rw [show Spinlock.step h (.release lk) = _ from release_held mem] at ok
      cases popped : popOff h.cpu with
      | error => simp [popped, Except.map] at ok
      | ok cpu => simp only [Harts.step, pc, hc, popped]; exact ⟨_, rfl⟩

end Harts

/-- Each lock has at most one owner, `locked` is set exactly while it has one, and `holding` is exact. -/
theorem harts_exclusion {s : Harts NCPU} (reach : s.Reachable) (lk : Lock) :
    (∀ c c', s.Owns c lk → s.Owns c' lk → c = c') ∧
    ((s.locks lk).locked = true ↔ ∃ c, s.Owns c lk) ∧
    ∀ c, s.holding c lk = true ↔ lk ∈ (s.hart c).held :=
  have inv := reach.inv
  ⟨inv.unique lk, inv.locked_iff lk, fun _ => inv.holding_iff⟩

/-- On every hart, in every interleaving. -/
theorem harts_nesting {s : Harts NCPU} (reach : s.Reachable) (c : Fin NCPU) :
    (s.pc c = .run → Reachable (s.hart c)) ∧
    (s.hart c).cpu.noff = (s.hart c).held.length + (s.hart c).bare + (if s.pc c = .run then 0 else 1) ∧
    (0 < (s.hart c).cpu.noff → (s.hart c).cpu.intr = false) ∧
    ∀ e, s.Allowed c e → (∃ s', s.step c e = .ok s') ∨
      (∃ lk, e = .acquire lk ∧ lk ∈ (s.hart c).held) ∨ (∃ lk, e = .release lk ∧ lk ∉ (s.hart c).held) :=
  have inv := reach.inv
  ⟨inv.reach_run, (inv.nesting c).1, (inv.nesting c).2, fun _ allowed => inv.step_ok allowed⟩

theorem contended_reachable : ∃ s : Harts 2, s.Reachable ∧ s.holding 0 3 = true ∧ s.pc 1 = .spin 3 := by
  have r₀ := @Harts.Reachable.init 2 (fun _ => true) (fun _ => true)
  have r₁ := @Harts.Reachable.step 2 _ _ 0 (.acquire 3) r₀ rfl rfl
  have r₂ := @Harts.Reachable.step 2 _ _ 0 .next r₁ (by decide) rfl
  have r₃ := @Harts.Reachable.step 2 _ _ 0 .next r₂ (by decide) rfl
  have r₄ := @Harts.Reachable.step 2 _ _ 1 (.acquire 3) r₃ rfl rfl
  have r₅ := @Harts.Reachable.step 2 _ _ 1 .next r₄ (by decide) rfl
  exact ⟨_, r₅, rfl, rfl⟩

theorem harts_exclusion_contended : ∃ s : Harts 2, s.holding 0 3 = true ∧ s.pc 1 = .spin 3 ∧
    ((∀ c c', s.Owns c 3 → s.Owns c' 3 → c = c') ∧ ((s.locks 3).locked = true ↔ ∃ c, s.Owns c 3) ∧
      ∀ c, s.holding c 3 = true ↔ 3 ∈ (s.hart c).held) := by
  obtain ⟨s, reach, holds, spins⟩ := contended_reachable
  exact ⟨s, holds, spins, harts_exclusion reach 3⟩

theorem harts_nesting_contended : ∃ s : Harts 2, s.holding 0 3 = true ∧ s.pc 1 = .spin 3 ∧
    ((s.pc 1 = .run → Reachable (s.hart 1)) ∧
    (s.hart 1).cpu.noff = (s.hart 1).held.length + (s.hart 1).bare + (if s.pc 1 = .run then 0 else 1) ∧
    (0 < (s.hart 1).cpu.noff → (s.hart 1).cpu.intr = false) ∧
    ∀ e, s.Allowed 1 e → (∃ s', s.step 1 e = .ok s') ∨
      (∃ lk, e = .acquire lk ∧ lk ∈ (s.hart 1).held) ∨ (∃ lk, e = .release lk ∧ lk ∉ (s.hart 1).held)) := by
  obtain ⟨s, reach, holds, spins⟩ := contended_reachable
  exact ⟨s, holds, spins, harts_nesting reach 1⟩

end Xv6.Spinlock
