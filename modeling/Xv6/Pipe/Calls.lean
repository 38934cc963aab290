import Xv6.Pipe

/-!
# Calls on the pipe

`Pipe.lean` takes the passes of `pipewrite`'s and `piperead`'s loops one at a time, each with
any caller's values. Here each process makes its own calls: `pipewrite` and `piperead` take
`pi->lock` on entry and hold it but while asleep, so the passes of one process's loop come in
order, with its own `i`, and another process gets in only while it sleeps or after it returns.
Each process keeps (ghost) the bytes its call stored, and those it took out of the ring and
copied out.

A `pipewrite` that returns `r ≥ 0` stored `r` bytes, and a `piperead` that returns `r ≥ 0`
copied out `r` bytes that it took from the ring in a row. But `piperead` counts a byte as read
before `copyout` has copied it, so a failed `copyout` takes one byte out of the ring that no
one receives; and a `pipewrite` that is killed, or finds the read end closed, after storing some
bytes returns -1 with those bytes in the ring.
-/

namespace Xv6.Pipes

/-- Where a process is in a call on the pipe. -/
inductive Place
  | idle
  | writeLoop (n i : Int)
  | writeAsleep (n i : Int)
  | writeRet (r : Int)
  | readWait (n : Int)
  | readAsleep (n : Int)
  | readCopy (n i : Int)
  | readRet (r : Int)
  deriving DecidableEq

/-- The places that hold `pi->lock`. -/
def Place.locked : Place → Bool
  | .writeLoop _ _ | .readWait _ | .readCopy _ _ => true
  | _ => false

/-- The places outside a call, from which a process may make one. -/
def Place.outside : Place → Bool
  | .idle | .writeRet _ | .readRet _ => true
  | _ => false

/-- A process at its place, with (ghost) what its current or last call moved. -/
structure Caller where
  place : Place
  stored : List UInt8
  taken : List UInt8
  copied : List UInt8
  deriving DecidableEq

/-- The caller after a pass of `pipewrite`'s loop at `i`. -/
def afterWrite (c : Caller) (n i : Int) (byte : Option UInt8) : WriteNext → Caller
  | .loop i => { c with place := .writeLoop n i, stored := c.stored ++ byte.toList }
  | .sleep => { c with place := .writeAsleep n i }
  | .ret r => { c with place := .writeRet r }

/-- The caller after a check of `piperead`'s wait loop. -/
def afterWait (c : Caller) (n : Int) : ReadNext → Caller
  | .wait => { c with place := .readAsleep n }
  | .copy i => { c with place := .readCopy n i }
  | .ret r => { c with place := .readRet r }

/-- The caller after a pass of `piperead`'s copy loop that took `took` out of the ring. -/
def afterRead (c : Caller) (n : Int) (took : List UInt8) : ReadNext → Caller
  | .copy i => { c with place := .readCopy n i, taken := c.taken ++ took, copied := c.copied ++ took }
  | .ret r => { c with place := .readRet r, taken := c.taken ++ took }
  | .wait => c

/-- What a process does, with the arguments and answers of its calls to other files. -/
inductive Op
  | pipewrite (n : Int)
  | piperead (n : Int)
  | write (killed : Bool) (byte : Option UInt8)
  | wake
  | wait (killed : Bool)
  | read (ok : Bool)
  | pipeclose (writable : Bool)

/-- One step of a process at `c` on the pipe `pi`. -/
def Caller.step (c : Caller) (pi : Pipe) : Op → Option (Caller × Option Event)
  | .pipewrite n => if c.place.outside then some (⟨.writeLoop n 0, [], [], []⟩, none) else none
  | .piperead n => if c.place.outside then some (⟨.readWait n, [], [], []⟩, none) else none
  | .write killed byte =>
    match c.place with
    | .writeLoop n i =>
      some (afterWrite c n i byte (pipewriteStep pi n i killed byte).2, some (.write n i killed byte))
    | _ => none
  | .wake =>
    match c.place with
    | .writeAsleep n i => some ({ c with place := .writeLoop n i }, none)
    | .readAsleep n => some ({ c with place := .readWait n }, none)
    | _ => none
  | .wait killed =>
    match c.place with
    | .readWait n => some (afterWait c n (pipereadWait pi killed), some (.wait killed))
    | _ => none
  | .read ok =>
    match c.place with
    | .readCopy n i =>
      let took := if (pipereadStep pi n i ok).1.nread = pi.nread then [] else [pi.data (slot pi.nread)]
      some (afterRead c n took (pipereadStep pi n i ok).2, some (.read n i ok))
    | _ => none
  | .pipeclose writable => if c.place.outside then some (c, some (.close writable)) else none

/-- The ring, the holder of `pi->lock`, and the processes. -/
structure Sys where
  ring : Ring
  holder : Option Nat
  procs : Nat → Caller

/-- A step of process `p`, which needs `pi->lock` free or its own. -/
def Sys.step (s : Sys) (p : Nat) (op : Op) : Option Sys :=
  if s.holder = none ∨ s.holder = some p then
    ((s.procs p).step s.ring.pipe op).map fun ce =>
      ⟨ce.2.elim s.ring s.ring.step, if ce.1.place.locked then some p else none,
        Function.update s.procs p ce.1⟩
  else none

/-- A fresh pipe, no process in a call. -/
def Sys.init : Sys := ⟨⟨pipealloc, [], []⟩, none, fun _ => ⟨.idle, [], [], []⟩⟩

inductive Sys.Reachable : Sys → Prop
  | init : Sys.Reachable Sys.init
  | step {s s' : Sys} (p : Nat) (op : Op) : Sys.Reachable s → s.step p op = some s' →
      Sys.Reachable s'

/-- The steps `ops` from `s`, in order. -/
def Sys.run (s : Sys) : List (Nat × Op) → Option Sys
  | [] => some s
  | (p, op) :: ops => (s.step p op).bind fun s' => s'.run ops

theorem Sys.Reachable.run {s s' : Sys} {ops : List (Nat × Op)} (reach : s.Reachable)
    (ran : s.run ops = some s') : s'.Reachable := by
  induction ops generalizing s with
  | nil => cases ran; exact reach
  | cons op ops ih =>
    obtain ⟨s₁, stepped, ran⟩ := Option.bind_eq_some.mp ran
    exact ih (reach.step op.1 op.2 stepped) ran

theorem Sys.Reachable.ring {s : Sys} (reach : s.Reachable) : Pipes.Reachable s.ring := by
  induction reach with
  | init => exact Pipes.Reachable.init
  | step p op _ stepped ih =>
    rename_i s s'
    simp only [Sys.step] at stepped
    split at stepped
    · obtain ⟨⟨c, e⟩, -, rfl⟩ := Option.map_eq_some'.mp stepped
      cases e with
      | none => exact ih
      | some e => exact Pipes.Reachable.step e ih
    · cases stepped

/-! ### What one pass does -/

theorem pipewriteStep_cases (pi : Pipe) (n i : Int) (killed : Bool) (byte : Option UInt8) :
    (∃ ch, byte = some ch ∧ pipewriteStep pi n i killed byte =
      ({ pi with data := Function.update pi.data (slot pi.nwrite) ch, nwrite := pi.nwrite + 1 },
        .loop (i + 1))) ∨
    pipewriteStep pi n i killed byte = (pi, .sleep) ∨
    ∃ r, (r = -1 ∨ r = i) ∧ pipewriteStep pi n i killed byte = (pi, .ret r) := by
  simp only [pipewriteStep]
  split
  · split
    · exact .inr (.inr ⟨-1, .inl rfl, rfl⟩)
    split
    · exact .inr (.inl rfl)
    cases byte with
    | none => exact .inr (.inr ⟨i, .inr rfl, rfl⟩)
    | some ch => exact .inl ⟨ch, rfl, rfl⟩
  · exact .inr (.inr ⟨i, .inr rfl, rfl⟩)

theorem pipereadWait_cases (pi : Pipe) (killed : Bool) :
    pipereadWait pi killed = .wait ∨ pipereadWait pi killed = .copy 0 ∨
      pipereadWait pi killed = .ret (-1) := by
  unfold pipereadWait
  split
  · cases killed
    exacts [.inl rfl, .inr (.inr rfl)]
  · exact .inr (.inl rfl)

theorem pipereadStep_cases (pi : Pipe) (n i : Int) (ok : Bool) :
    pipereadStep pi n i ok = (pi, .ret i) ∨
    pi.nread ≠ pi.nwrite ∧ pipereadStep pi n i ok =
      ({ pi with nread := pi.nread + 1 }, if ok then .copy (i + 1) else .ret i) := by
  simp only [pipereadStep]
  split
  · split
    · exact .inl rfl
    · exact .inr ⟨‹_›, by cases ok <;> rfl⟩
  · exact .inl rfl

theorem Ring.step_same {r : Ring} {e : Event} (same : apply r.pipe e = r.pipe) : r.step e = r := by
  simp [Ring.step, same]

theorem Ring.step_store {r : Ring} {e : Event} {ch : UInt8}
    (store : apply r.pipe e =
      { r.pipe with data := Function.update r.pipe.data (slot r.pipe.nwrite) ch, nwrite := r.pipe.nwrite + 1 }) :
    (r.step e).stored = r.stored ++ [ch] ∧ (r.step e).removed = r.removed := by
  simp only [Ring.step, store, if_neg (succ_ne _), Function.update_same, if_true, and_self]

theorem Ring.step_take {r : Ring} {e : Event}
    (take : apply r.pipe e = { r.pipe with nread := r.pipe.nread + 1 }) :
    (r.step e).stored = r.stored ∧ (r.step e).removed = r.removed ++ [r.pipe.data (slot r.pipe.nread)] := by
  simp only [Ring.step, take, if_neg (succ_ne _), if_true, and_self]

theorem Ring.step_grows (r : Ring) (e : Event) :
    r.stored <+: (r.step e).stored ∧ r.removed <+: (r.step e).removed := by
  dsimp only [Ring.step]
  constructor <;> split
  all_goals first | exact List.prefix_rfl | exact List.prefix_append _ _

/-! ### What each call has moved -/

/-- What a process's place says of its own bytes. -/
def Caller.Accounts (c : Caller) : Prop :=
  match c.place with
  | .idle => True
  | .writeLoop _ i | .writeAsleep _ i => i = c.stored.length
  | .writeRet r => r = -1 ∨ r = c.stored.length
  | .readWait _ | .readAsleep _ => c.taken = [] ∧ c.copied = []
  | .readCopy _ i => i = c.taken.length ∧ c.copied = c.taken
  | .readRet r => r = -1 ∧ c.taken = [] ∧ c.copied = [] ∨
      r = c.copied.length ∧ (c.taken = c.copied ∨ ∃ b, c.taken = c.copied ++ [b])

/-- A process's bytes in the ring: those it stored are among the ring's, in order. -/
structure Caller.Fits (c : Caller) (ring : Ring) : Prop where
  accounts : c.Accounts
  stored : c.stored.Sublist ring.stored
  taken : c.taken <:+: ring.removed
  copying : ∀ n i, c.place = .readCopy n i → c.taken <:+ ring.removed

theorem Caller.Fits.grow {c : Caller} {ring ring' : Ring} (fits : c.Fits ring)
    (stored : ring.stored <+: ring'.stored) (removed : ring.removed <+: ring'.removed)
    (unlocked : c.place.locked = false) : c.Fits ring' := by
  refine ⟨fits.accounts, fits.stored.trans stored.sublist, fits.taken.trans removed.isInfix,
    fun n i copying => ?_⟩
  rw [copying] at unlocked
  cases unlocked

theorem Caller.fits_start {place : Place} (ring : Ring) (start : Caller.Accounts ⟨place, [], [], []⟩) :
    Caller.Fits ⟨place, [], [], []⟩ ring :=
  ⟨start, List.nil_sublist _, List.nil_infix, fun _ _ _ => List.nil_suffix⟩

theorem Caller.Fits.moveTo {c : Caller} {ring : Ring} (fits : c.Fits ring) {place : Place}
    (accounts : Caller.Accounts { c with place := place })
    (copying : ∀ n i, place = .readCopy n i → c.taken <:+ ring.removed) :
    Caller.Fits { c with place := place } ring :=
  ⟨accounts, fits.stored, fits.taken, copying⟩

theorem suffix_append_right {l₁ l₂ : List UInt8} (suffix : l₁ <:+ l₂) (l : List UInt8) :
    l₁ ++ l <:+ l₂ ++ l := by
  obtain ⟨t, rfl⟩ := suffix
  exact ⟨t, (List.append_assoc _ _ _).symm⟩

theorem Caller.Fits.step {c c' : Caller} {ring : Ring} {op : Op} {e : Option Event}
    (fits : c.Fits ring) (stepped : c.step ring.pipe op = some (c', e)) :
    c'.Fits (e.elim ring ring.step) := by
  have accounts := fits.accounts
  cases op with
  | pipewrite n | piperead n =>
    simp only [Caller.step] at stepped
    split at stepped
    · cases stepped; exact Caller.fits_start ring (by simp [Caller.Accounts])
    · cases stepped
  | pipeclose writable =>
    simp only [Caller.step] at stepped
    split at stepped
    · cases stepped
      rename_i outside
      have grows := Ring.step_grows ring (.close writable)
      refine fits.grow grows.1 grows.2 ?_
      revert outside; cases c.place <;> simp [Place.locked, Place.outside]
    · cases stepped
  | wake =>
    simp only [Caller.step] at stepped
    split at stepped <;> cases stepped <;> rename_i place
    all_goals
      simp only [Caller.Accounts, place] at accounts
      exact fits.moveTo (by simpa [Caller.Accounts] using accounts) fun _ _ h => by cases h
  | write killed byte =>
    simp only [Caller.step] at stepped
    split at stepped
    · cases stepped
      rename_i n i place
      simp only [Caller.Accounts, place] at accounts
      rcases pipewriteStep_cases ring.pipe n i killed byte with ⟨ch, rfl, pass⟩ | pass | ⟨r, ret, pass⟩
      · obtain ⟨stored, removed⟩ :=
          @Ring.step_store ring (.write n i killed (some ch)) ch (congrArg Prod.fst pass)
        simp only [pass, afterWrite, Option.elim_some]
        refine ⟨?_, ?_, removed ▸ fits.taken, fun _ _ h => by cases h⟩
        · simp [Caller.Accounts, accounts]
        · rw [stored]; exact fits.stored.append (List.Sublist.refl _)
      · simp only [pass, afterWrite, Option.elim_some,
          @Ring.step_same ring (.write n i killed byte) (congrArg Prod.fst pass)]
        exact fits.moveTo (by simp [Caller.Accounts, accounts]) fun _ _ h => by cases h
      · simp only [pass, afterWrite, Option.elim_some,
          @Ring.step_same ring (.write n i killed byte) (congrArg Prod.fst pass)]
        exact fits.moveTo (by simp only [Caller.Accounts]; rw [← accounts]; exact ret)
          fun _ _ h => by cases h
    · cases stepped
  | wait killed =>
    simp only [Caller.step] at stepped
    split at stepped
    · cases stepped
      rename_i n place
      simp only [Caller.Accounts, place] at accounts
      simp only [Option.elim_some, @Ring.step_same ring (.wait killed) rfl]
      rcases pipereadWait_cases ring.pipe killed with check | check | check <;>
        simp only [check, afterWait] <;>
        exact fits.moveTo (by simp [Caller.Accounts, accounts]) fun _ _ _ => accounts.1 ▸ List.nil_suffix
    · cases stepped
  | read ok =>
    simp only [Caller.step] at stepped
    split at stepped
    · cases stepped
      rename_i n i place
      have suffix := fits.copying n i place
      simp only [Caller.Accounts, place] at accounts
      rcases pipereadStep_cases ring.pipe n i ok with pass | ⟨-, pass⟩
      · simp only [pass, if_true, afterRead, Option.elim_some, List.append_nil,
          @Ring.step_same ring (.read n i ok) (congrArg Prod.fst pass)]
        exact fits.moveTo (by simp [Caller.Accounts, accounts]) fun _ _ h => by cases h
      · obtain ⟨stored, removed⟩ := @Ring.step_take ring (.read n i ok) (congrArg Prod.fst pass)
        have took := suffix_append_right suffix [ring.pipe.data (slot ring.pipe.nread)]
        rw [← removed] at took
        cases ok <;> simp only [pass, if_neg (succ_ne _), afterRead, Option.elim_some] <;>
          refine ⟨?_, stored ▸ fits.stored, took.isInfix, ?_⟩
        · simp [Caller.Accounts, accounts]
        · intro _ _ h; cases h
        · simp [Caller.Accounts, accounts]
        · intro _ _ _; exact accounts.2 ▸ took
    · cases stepped

/-! ### Every run -/

/-- `pi->lock` is held by the one process whose place holds it, and every process's bytes are in the ring. -/
structure Sys.Inv (s : Sys) : Prop where
  lock : ∀ p, (s.procs p).place.locked = true ↔ s.holder = some p
  fits : ∀ p, (s.procs p).Fits s.ring

theorem Sys.Inv.step {s s' : Sys} {p : Nat} {op : Op} (inv : s.Inv) (stepped : s.step p op = some s') :
    s'.Inv := by
  simp only [Sys.step] at stepped
  split at stepped
  case isFalse => cases stepped
  rename_i free
  obtain ⟨⟨c, e⟩, own, rfl⟩ := Option.map_eq_some'.mp stepped
  dsimp only
  -- every other process is outside the lock, before the step and after it
  have other {q : Nat} (ne : q ≠ p) : (s.procs q).place.locked = false := by
    cases held : (s.procs q).place.locked
    · rfl
    · have holder := (inv.lock q).mp held
      rcases free with free | free <;> rw [free] at holder
      · cases holder
      · exact absurd (Option.some.inj holder).symm ne
  have grows : s.ring.stored <+: (e.elim s.ring s.ring.step).stored ∧
      s.ring.removed <+: (e.elim s.ring s.ring.step).removed := by
    cases e with
    | none => exact ⟨List.prefix_rfl, List.prefix_rfl⟩
    | some e => exact Ring.step_grows _ _
  refine ⟨fun q => ?_, fun q => ?_⟩
  · by_cases same : q = p
    · subst same
      simp only [Function.update_same]
      cases c.place.locked <;> simp
    · have ne : p ≠ q := Ne.symm same
      simp only [Function.update_noteq same, other same]
      split <;> simp [ne]
  · by_cases same : q = p
    · subst same
      simp only [Function.update_same]
      exact (inv.fits q).step own
    · simp only [Function.update_noteq same]
      exact (inv.fits q).grow grows.1 grows.2 (other same)

theorem Sys.Reachable.inv {s : Sys} (reach : s.Reachable) : s.Inv := by
  induction reach with
  | init => exact ⟨fun _ => by simp [Sys.init, Place.locked], fun _ => Caller.fits_start _ trivial⟩
  | step _ _ _ stepped inv => exact inv.step stepped

/-- Each returned `pipewrite` stored its bytes in order, and each `piperead` copied out a prefix of what it took. -/
theorem pipe_calls_accounted {s : Sys} (reach : s.Reachable) (p : Nat) :
    (∀ r, (s.procs p).place = .writeRet r → 0 ≤ r →
      (s.procs p).stored.length = r ∧ (s.procs p).stored.Sublist s.ring.stored) ∧
    ∀ r, (s.procs p).place = .readRet r → 0 ≤ r →
      (s.procs p).copied.length = r ∧ (s.procs p).copied <+: (s.procs p).taken ∧
      (s.procs p).taken.length ≤ r + 1 ∧ (s.procs p).taken <:+: s.ring.removed := by
  have fits := reach.inv.fits p
  have accounts := fits.accounts
  refine ⟨fun r place nonneg => ?_, fun r place nonneg => ?_⟩
  · simp only [Caller.Accounts, place] at accounts
    refine ⟨?_, fits.stored⟩
    omega
  · simp only [Caller.Accounts, place] at accounts
    rcases accounts with ⟨rfl, -⟩ | ⟨rfl, same | ⟨b, more⟩⟩
    · omega
    · exact ⟨rfl, same ▸ List.prefix_rfl, by rw [same]; omega, fits.taken⟩
    · exact ⟨rfl, more ▸ List.prefix_append _ _, by rw [more]; simp, fits.taken⟩

/-- The run of `piperead_loses_byte`: process 2's `piperead` returns 0 after taking a byte. -/
def readFails : List (Nat × Op) :=
  [(1, .pipewrite 1), (1, .write false (some 104)), (1, .write false none),
    (2, .piperead 5), (2, .wait false), (2, .read false)]

def lostByte : Sys := (Sys.init.run readFails).getD Sys.init

theorem pipe_calls_accounted_lost_byte :
    lostByte.Reachable ∧ (lostByte.procs 2).place = .readRet 0 ∧ (lostByte.procs 2).taken = [104] ∧
    (∀ r, (lostByte.procs 2).place = .writeRet r → 0 ≤ r →
      (lostByte.procs 2).stored.length = r ∧ (lostByte.procs 2).stored.Sublist lostByte.ring.stored) ∧
    ∀ r, (lostByte.procs 2).place = .readRet r → 0 ≤ r →
      (lostByte.procs 2).copied.length = r ∧ (lostByte.procs 2).copied <+: (lostByte.procs 2).taken ∧
      (lostByte.procs 2).taken.length ≤ r + 1 ∧ (lostByte.procs 2).taken <:+: lostByte.ring.removed :=
  have reach : lostByte.Reachable := @Sys.Reachable.run _ _ readFails .init rfl
  ⟨reach, rfl, rfl, pipe_calls_accounted reach 2⟩

/-! ### Two runs -/

/-- A writer stores `h` and returns 1. -/
theorem piperead_loses_byte :
    ∃ s, Sys.init.run [(1, .pipewrite 1), (1, .write false (some 104)), (1, .write false none),
        (2, .piperead 5), (2, .wait false), (2, .read false)] = some s ∧
      (s.procs 2).place = .readRet 0 ∧ (s.procs 2).copied = [] ∧ (s.procs 2).taken = [104] ∧
      s.ring.pipe.nread = 1 ∧ s.ring.removed = [104] :=
  ⟨_, rfl, rfl, rfl, rfl, rfl, rfl⟩

/-- A writer asks to write 2 bytes, stores `h`, and finds itself killed on its next pass. -/
theorem pipewrite_fails_after_storing :
    ∃ s, Sys.init.run [(1, .pipewrite 2), (1, .write false (some 104)), (1, .write true (some 105))] =
        some s ∧
      (s.procs 1).place = .writeRet (-1) ∧ (s.procs 1).stored = [104] ∧ s.ring.stored = [104] ∧
      s.ring.pipe.nwrite = 1 :=
  ⟨_, rfl, rfl, rfl, rfl, rfl⟩

end Xv6.Pipes
