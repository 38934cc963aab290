import Mathlib.Data.List.Basic

/-!
# Spinlocks and interrupt nesting

`spinlock.c` on one hart. `push_off`/`pop_off` keep the nesting depth `noff` and the
interrupt-enable bit of the outermost `push_off`; `acquire` and `release` bracket a lock
with them. `nesting_reachable` shows the depth counts the held locks and the bare
`push_off`s, and `nested_restores_intr` that leaving the outermost bracket restores the bit.
-/

namespace Xv6.Spinlock

/-- A spinlock, by identity. -/
abbrev Lock := Nat

/-- `struct cpu`'s `noff` and `intena`, and the hart's `SSTATUS_SIE` bit that `intr_get` reads. -/
structure Cpu where
  noff : Int
  intena : Bool
  intr : Bool
  deriving DecidableEq, Repr

/-- One hart: its `struct cpu`, the locks whose `cpu` field is this hart, and (ghost) the bare
`push_off` calls not yet matched by a `pop_off`. -/
structure Hart where
  cpu : Cpu
  held : List Lock
  bare : Nat
  deriving DecidableEq, Repr

def pushOff (c : Cpu) : Cpu :=
  let old := c.intr
  let c := { c with intr := false }
  let c := if c.noff = 0 then { c with intena := old } else c
  { c with noff := c.noff + 1 }

def popOff (c : Cpu) : Except String Cpu :=
  if c.intr then .error "pop_off - interruptible"
  else if c.noff < 1 then .error "pop_off"
  else
    let c := { c with noff := c.noff - 1 }
    .ok (if c.noff = 0 ∧ c.intena then { c with intr := true } else c)

/-- `lk->locked && lk->cpu == mycpu()`. -/
def holding (h : Hart) (lk : Lock) : Bool := h.held.contains lk

def acquire (h : Hart) (lk : Lock) : Except String Hart :=
  let h := { h with cpu := pushOff h.cpu }
  if holding h lk then .error "acquire"
  else .ok { h with held := lk :: h.held }

def release (h : Hart) (lk : Lock) : Except String Hart :=
  if !holding h lk then .error "release"
  else
    let h := { h with held := h.held.erase lk }
    (popOff h.cpu).map fun c => { h with cpu := c }

/-- What runs on the hart: the lock calls, bare `push_off`/`pop_off`, and other code turning interrupts on or off. -/
inductive Op
  | acquire (lk : Lock)
  | release (lk : Lock)
  | pushOff
  | popOff
  | intrOn
  | intrOff

def step (h : Hart) : Op → Except String Hart
  | .acquire lk => acquire h lk
  | .release lk => release h lk
  | .pushOff => .ok { h with cpu := pushOff h.cpu, bare := h.bare + 1 }
  | .popOff => (popOff h.cpu).map fun c => { h with cpu := c, bare := h.bare - 1 }
  | .intrOn => .ok { h with cpu := { h.cpu with intr := true } }
  | .intrOff => .ok { h with cpu := { h.cpu with intr := false } }

/-- The callers' side of the contract. -/
def Allowed (h : Hart) : Op → Prop
  | .acquire lk => lk ∉ h.held
  | .release lk => lk ∈ h.held
  | .popOff => 0 < h.bare
  | .intrOn => h.cpu.noff = 0
  | .pushOff | .intrOff => True

inductive Reachable : Hart → Prop
  | init (intena intr : Bool) : Reachable ⟨⟨0, intena, intr⟩, [], 0⟩
  | step {h h' : Hart} {op : Op} : Reachable h → Allowed h op → step h op = .ok h' → Reachable h'

/-- The nesting invariant: the depth counts held locks and bare pushes, and interrupts are off inside a bracket. -/
structure Nesting (h : Hart) : Prop where
  noff_eq : h.cpu.noff = h.held.length + h.bare
  nodup : h.held.Nodup
  intr_off : 0 < h.cpu.noff → h.cpu.intr = false

/-! ### What one call does -/

theorem pushOff_eq (c : Cpu) :
    pushOff c = ⟨c.noff + 1, if c.noff = 0 then c.intr else c.intena, false⟩ := by
  unfold pushOff; dsimp only; split <;> simp_all

theorem popOff_ready {c : Cpu} (off : c.intr = false) (pos : 1 ≤ c.noff) :
    popOff c = .ok ⟨c.noff - 1, c.intena, decide (c.noff - 1 = 0 ∧ c.intena)⟩ := by
  unfold popOff
  rw [if_neg (by simp [off]), if_neg (Int.not_lt.mpr pos)]
  dsimp only; split <;> simp_all

theorem acquire_free {h : Hart} {lk : Lock} (free : lk ∉ h.held) :
    acquire h lk = .ok { h with cpu := pushOff h.cpu, held := lk :: h.held } := by
  simp [acquire, holding, free]

theorem release_held {h : Hart} {lk : Lock} (held : lk ∈ h.held) :
    release h lk = (popOff h.cpu).map fun c => { h with cpu := c, held := h.held.erase lk } := by
  simp [release, holding, held]

theorem step_ok {h : Hart} {op : Op} (inv : Nesting h) (allowed : Allowed h op) :
    ∃ h', step h op = .ok h' ∧ Nesting h' := by
  obtain ⟨count, nodup, off⟩ := inv
  cases op with
  | acquire lk =>
    refine ⟨_, acquire_free allowed, ?_, List.nodup_cons.mpr ⟨allowed, nodup⟩, fun _ => ?_⟩
    · simp only [pushOff_eq, List.length_cons, count]; omega
    · simp only [pushOff_eq]
  | release lk =>
    have nonempty := List.length_pos_of_mem allowed
    have pos : 1 ≤ h.cpu.noff := by omega
    have shrink := List.length_erase_of_mem allowed
    rw [step, release_held allowed, popOff_ready (off (by omega)) pos]
    refine ⟨_, rfl, ?_, nodup.erase lk, fun pos' => ?_⟩
    · simp only [shrink]; omega
    · simp only at pos' ⊢; simp only [decide_eq_false_iff_not]; omega
  | pushOff =>
    refine ⟨_, rfl, ?_, nodup, fun _ => ?_⟩
    · simp only [pushOff_eq]; omega
    · simp only [pushOff_eq]
  | popOff =>
    have pos : 1 ≤ h.cpu.noff := by simp only [Allowed] at allowed; omega
    rw [step, popOff_ready (off (by omega)) pos]
    refine ⟨_, rfl, ?_, nodup, fun pos' => ?_⟩
    · simp only [Allowed] at allowed; simp only; omega
    · simp only at pos' ⊢; simp only [decide_eq_false_iff_not]; omega
  | intrOn =>
    exact ⟨_, rfl, count, nodup, fun pos => by simp only [Allowed] at allowed pos; omega⟩
  | intrOff => exact ⟨_, rfl, count, nodup, fun _ => rfl⟩

/-! ### Leaving the outermost bracket -/

theorem step_cpu {h h' : Hart} {op : Op} (inv : Nesting h) (allowed : Allowed h op)
    (ok : step h op = .ok h') :
    h'.cpu = pushOff h.cpu ∨
    (1 ≤ h.cpu.noff ∧ h.cpu.intr = false ∧
      h'.cpu = ⟨h.cpu.noff - 1, h.cpu.intena, decide (h.cpu.noff - 1 = 0 ∧ h.cpu.intena)⟩) ∨
    (h.cpu.noff = 0 ∧ h'.cpu = { h.cpu with intr := true }) ∨
    h'.cpu = { h.cpu with intr := false } := by
  obtain ⟨count, _, off⟩ := inv
  cases op with
  | acquire lk => rw [step, acquire_free allowed] at ok; cases ok; exact .inl rfl
  | pushOff => cases ok; exact .inl rfl
  | release lk =>
    have pos : 1 ≤ h.cpu.noff := by have := List.length_pos_of_mem allowed; omega
    rw [step, release_held allowed, popOff_ready (off (by omega)) pos] at ok
    cases ok; exact .inr (.inl ⟨pos, off (by omega), rfl⟩)
  | popOff =>
    have pos : 1 ≤ h.cpu.noff := by simp only [Allowed] at allowed; omega
    rw [step, popOff_ready (off (by omega)) pos] at ok
    cases ok; exact .inr (.inl ⟨pos, off (by omega), rfl⟩)
  | intrOn => cases ok; exact .inr (.inr (.inl ⟨allowed, rfl⟩))
  | intrOff => cases ok; exact .inr (.inr (.inr rfl))

/-- `h'` follows `h` by allowed calls, every state after `h` inside a bracket. -/
inductive Nested : Hart → Hart → Prop
  | first {h h' : Hart} {op : Op} :
      Allowed h op → step h op = .ok h' → 0 < h'.cpu.noff → Nested h h'
  | next {h h₁ h' : Hart} {op : Op} :
      Nested h h₁ → Allowed h₁ op → step h₁ op = .ok h' → 0 < h'.cpu.noff → Nested h h'

theorem step_nesting {h h' : Hart} {op : Op} (inv : Nesting h) (allowed : Allowed h op)
    (ok : step h op = .ok h') : Nesting h' := by
  obtain ⟨h'', ok', inv'⟩ := step_ok inv allowed
  rw [ok] at ok'
  cases ok'
  exact inv'

theorem nested_intena {h h₁ : Hart} (inv : Nesting h) (zero : h.cpu.noff = 0)
    (nested : Nested h h₁) : Nesting h₁ ∧ 0 < h₁.cpu.noff ∧ h₁.cpu.intena = h.cpu.intr := by
  induction nested with
  | first allowed ok pos =>
    refine ⟨step_nesting inv allowed ok, pos, ?_⟩
    rcases step_cpu inv allowed ok with e | ⟨one, -⟩ | ⟨-, e⟩ | e
    · simp only [e, pushOff_eq, zero, if_true]
    · omega
    all_goals simp only [e] at pos; omega
  | next _ allowed ok pos ih =>
    obtain ⟨inv₁, pos₁, saved⟩ := ih
    refine ⟨step_nesting inv₁ allowed ok, pos, ?_⟩
    rcases step_cpu inv₁ allowed ok with e | ⟨-, -, e⟩ | ⟨zero₁, -⟩ | e
    · simp only [e, pushOff_eq, Int.ne_of_gt pos₁, if_false, saved]
    · simp only [e, saved]
    · omega
    · simp only [e, saved]

theorem nesting_reachable {h : Hart} (reach : Reachable h) : Nesting h := by
  induction reach with
  | init => exact ⟨by simp, List.nodup_nil, fun pos => absurd pos (by simp)⟩
  | step _ allowed ok ih => exact step_nesting ih allowed ok

theorem nested_restores_intr {h h₁ h' : Hart} {op : Op} (reach : Reachable h)
    (zero : h.cpu.noff = 0) (nested : Nested h h₁) (allowed : Allowed h₁ op)
    (ok : step h₁ op = .ok h') (leave : h'.cpu.noff = 0) : h'.cpu.intr = h.cpu.intr := by
  obtain ⟨inv₁, pos₁, saved⟩ := nested_intena (nesting_reachable reach) zero nested
  rcases step_cpu inv₁ allowed ok with e | ⟨-, -, e⟩ | ⟨zero₁, -⟩ | e
  · simp only [e, pushOff_eq] at leave; omega
  · simp only [e] at leave ⊢; simp [leave, saved]
  · omega
  · simp only [e] at leave; omega

/-- Over every allowed run of lock calls and bare pushes on one hart. -/
theorem interrupt_nesting {h : Hart} (reach : Reachable h) :
    h.cpu.noff = h.held.length + h.bare ∧ (0 < h.cpu.noff → h.cpu.intr = false) ∧
    (∀ op, Allowed h op → ∃ h', step h op = .ok h') ∧
    (h.cpu.noff = 0 → ∀ h₁ h' op, Nested h h₁ → Allowed h₁ op → step h₁ op = .ok h' →
      h'.cpu.noff = 0 → h'.cpu.intr = h.cpu.intr) :=
  have inv := nesting_reachable reach
  ⟨inv.noff_eq, inv.intr_off, fun _ allowed => (step_ok inv allowed).imp fun _ => And.left,
    fun zero _ _ _ => nested_restores_intr reach zero⟩

theorem interrupt_nesting_holding_one :
    Reachable ⟨⟨1, true, false⟩, [7], 0⟩ ∧
    ((1 : Int) = ([7] : List Lock).length + 0 ∧ ((0 : Int) < 1 → false = false) ∧
    (∀ op, Allowed ⟨⟨1, true, false⟩, [7], 0⟩ op →
      ∃ h', step ⟨⟨1, true, false⟩, [7], 0⟩ op = .ok h') ∧
    ((1 : Int) = 0 → ∀ h₁ h' op, Nested ⟨⟨1, true, false⟩, [7], 0⟩ h₁ → Allowed h₁ op →
      step h₁ op = .ok h' → h'.cpu.noff = 0 → h'.cpu.intr = false)) :=
  have reach : Reachable ⟨⟨1, true, false⟩, [7], 0⟩ :=
    @Reachable.step _ _ (.acquire 7) (.init true true) (by simp [Allowed]) rfl
  ⟨reach, interrupt_nesting reach⟩

end Xv6.Spinlock
