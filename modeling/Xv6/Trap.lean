import Mathlib.Data.BitVec
import Mathlib.Logic.Function.Basic

/-!
# The trap code

`trap.c`: `usertrap` and `usertrapret` take a process from user mode into the kernel and back,
`kerneltrap` handles a trap taken in the kernel, `devintr` sorts out device and timer interrupts
and `clockintr` counts ticks. They run on a RISC-V hart, whose trap entry and `sret` are modelled
here too, with the trampoline's `uservec` and `userret` as the spec describes them.

The code is written in `Code`, a state monad over the hart, the current process and the tick
counter. Each write to a hart register is recorded (`World.seen`): a trap can be taken between
any two instructions, so a property of the trap code's routing is asked of every state the code
leaves the hart in, not only of the state it returns in.
-/

namespace Xv6.Trap

/-! ### The hart -/

/-- `riscv.h` (not among the sources): the `sstatus` bits the trap code reads and writes. -/
def SSTATUS_SPP : BitVec 64 := 1 <<< 8
def SSTATUS_SPIE : BitVec 64 := 1 <<< 5
def SSTATUS_SIE : BitVec 64 := 1 <<< 1

inductive Priv
  | user
  | supervisor
  deriving DecidableEq

/-- A hart: its privilege, `pc`, general registers (`sp` is `x2`, `tp` is `x4`), the supervisor
registers the trap code uses, and `mhartid`, which names it. -/
structure Hart where
  priv : Priv
  pc : BitVec 64
  regs : Fin 32 → BitVec 64
  sstatus : BitVec 64
  sepc : BitVec 64
  scause : BitVec 64
  stvec : BitVec 64
  sip : BitVec 64
  satp : BitVec 64
  mhartid : BitVec 64

/-- `x` with the bits of `m` set when `b`, cleared when not. -/
def putBits (x m : BitVec 64) (b : Bool) : BitVec 64 := if b then x ||| m else x &&& ~~~m

theorem getLsbD_single (i j : Nat) (lt : i < 64) :
    ((1 : BitVec 64) <<< i).getLsbD j = decide (j = i) := by
  simp only [BitVec.getLsbD_shiftLeft, BitVec.getLsbD_one]
  by_cases same : j = i
  · subst same; simp [lt]
  · rcases Nat.lt_or_ge j i with below | above
    · simp [below, same]
    · have : j - i ≠ 0 := by omega
      simp [this, same]

@[simp] theorem getLsbD_SSTATUS_SPP (j : Nat) : SSTATUS_SPP.getLsbD j = decide (j = 8) :=
  getLsbD_single 8 j (by decide)
@[simp] theorem getLsbD_SSTATUS_SPIE (j : Nat) : SSTATUS_SPIE.getLsbD j = decide (j = 5) :=
  getLsbD_single 5 j (by decide)
@[simp] theorem getLsbD_SSTATUS_SIE (j : Nat) : SSTATUS_SIE.getLsbD j = decide (j = 1) :=
  getLsbD_single 1 j (by decide)

theorem and_single_eq_zero {m : BitVec 64} {i : Nat} (lt : i < 64)
    (single : ∀ j, m.getLsbD j = decide (j = i)) (x : BitVec 64) :
    x &&& m = 0#64 ↔ x.getLsbD i = false := by
  constructor
  · intro zero
    simpa [single, lt] using congrArg (fun y => y.getLsbD i) zero
  · intro clear
    apply BitVec.eq_of_getLsbD_eq
    intro ⟨j, _⟩
    by_cases same : j = i
    · subst same; simp [clear]
    · simp [single, same]

@[simp] theorem and_SSTATUS_SPP_eq_zero (x : BitVec 64) :
    x &&& SSTATUS_SPP = 0#64 ↔ x.getLsbD 8 = false :=
  and_single_eq_zero (by decide) getLsbD_SSTATUS_SPP x
@[simp] theorem and_SSTATUS_SPIE_eq_zero (x : BitVec 64) :
    x &&& SSTATUS_SPIE = 0#64 ↔ x.getLsbD 5 = false :=
  and_single_eq_zero (by decide) getLsbD_SSTATUS_SPIE x
@[simp] theorem and_SSTATUS_SIE_eq_zero (x : BitVec 64) :
    x &&& SSTATUS_SIE = 0#64 ↔ x.getLsbD 1 = false :=
  and_single_eq_zero (by decide) getLsbD_SSTATUS_SIE x

@[simp] theorem getLsbD_putBits (x m : BitVec 64) (b : Bool) (j : Nat) :
    (putBits x m b).getLsbD j = if m.getLsbD j then b else x.getLsbD j := by
  unfold putBits
  by_cases lt : j < 64
  · cases b <;> cases bit : m.getLsbD j <;> simp [lt, bit]
  · simp [BitVec.getLsbD_ge _ _ (Nat.le_of_not_lt lt)]

theorem and_single_bne_zero {m : BitVec 64} {i : Nat} (lt : i < 64)
    (single : ∀ j, m.getLsbD j = decide (j = i)) (x : BitVec 64) :
    (x &&& m != 0#64) = x.getLsbD i := by
  rw [Bool.eq_iff_iff, bne_iff_ne, ne_eq, and_single_eq_zero lt single]
  simp

@[simp] theorem and_SSTATUS_SPP_bne_zero (x : BitVec 64) :
    (x &&& SSTATUS_SPP != 0#64) = x.getLsbD 8 :=
  and_single_bne_zero (by decide) getLsbD_SSTATUS_SPP x
@[simp] theorem and_SSTATUS_SPIE_bne_zero (x : BitVec 64) :
    (x &&& SSTATUS_SPIE != 0#64) = x.getLsbD 5 :=
  and_single_bne_zero (by decide) getLsbD_SSTATUS_SPIE x
@[simp] theorem and_SSTATUS_SIE_bne_zero (x : BitVec 64) :
    (x &&& SSTATUS_SIE != 0#64) = x.getLsbD 1 :=
  and_single_bne_zero (by decide) getLsbD_SSTATUS_SIE x

/-- `sstatus.SIE`, as `intr_get` reads it. -/
def Hart.intrOn (h : Hart) : Bool := h.sstatus &&& SSTATUS_SIE != 0

@[simp] theorem Hart.intrOn_eq (h : Hart) : h.intrOn = h.sstatus.getLsbD 1 := by
  simp [Hart.intrOn]

/-- The RISC-V privileged architecture's trap entry (not among the sources). -/
def Hart.trap (h : Hart) (cause : BitVec 64) : Hart :=
  let s := putBits h.sstatus SSTATUS_SPP (h.priv = .supervisor)
  let s := putBits s SSTATUS_SPIE (h.sstatus &&& SSTATUS_SIE != 0)
  { h with
    sstatus := putBits s SSTATUS_SIE false
    sepc := h.pc
    scause := cause
    priv := .supervisor
    pc := h.stvec }

/-- `sret` (not among the sources). -/
def Hart.sret (h : Hart) : Hart :=
  let s := putBits h.sstatus SSTATUS_SIE (h.sstatus &&& SSTATUS_SPIE != 0)
  let s := putBits (putBits s SSTATUS_SPIE true) SSTATUS_SPP false
  { h with
    priv := if h.sstatus &&& SSTATUS_SPP != 0 then .supervisor else .user
    sstatus := s
    pc := h.sepc }

/-! ### The process and the trap frame -/

/-- The fields of `struct trapframe` the trap code and the trampoline use, with the user's general
registers saved by `uservec`. -/
structure Trapframe where
  kernel_satp : BitVec 64
  kernel_sp : BitVec 64
  kernel_trap : BitVec 64
  epc : BitVec 64
  kernel_hartid : BitVec 64
  regs : Fin 32 → BitVec 64

/-- The fields of `struct proc` the trap code reads or writes. -/
structure Proc where
  trapframe : Trapframe
  killed : Bool
  kstack : BitVec 64
  pagetable : BitVec 64

/-- The collaborators `devintr` and `clockintr` call. -/
inductive Call
  | plic_claim (irq : Int)
  | uartintr
  | virtio_disk_intr
  | plic_complete (irq : Int)
  | wakeup_ticks
  deriving DecidableEq

/-- What the trap code acts on: the hart, the current process, `ticks`, and (ghost) the calls made
and every state a write left the hart in. -/
structure World where
  hart : Hart
  proc : Proc
  ticks : BitVec 32
  calls : List Call
  seen : List Hart

/-- The addresses the trap code uses that the sources do not fix, and the PLIC's irq numbers. -/
structure Layout where
  kernelvec : BitVec 64
  usertrap : BitVec 64
  TRAMPOLINE : BitVec 64
  trampoline : BitVec 64
  uservec : BitVec 64
  userret : BitVec 64
  kernelSatp : BitVec 64
  UART0_IRQ : Int
  VIRTIO0_IRQ : Int
  vectors_ne : kernelvec ≠ TRAMPOLINE + (uservec - trampoline)

/-- `TRAMPOLINE + (uservec - trampoline)`: where `uservec` is mapped, in every address space. -/
def Layout.trampoline_uservec (L : Layout) : BitVec 64 := L.TRAMPOLINE + (L.uservec - L.trampoline)

/-- `riscv.h` (not among the sources): the `satp` value for a Sv39 page table. -/
def MAKE_SATP (pagetable : BitVec 64) : BitVec 64 := 8 <<< 60 ||| pagetable >>> 12

def PGSIZE : BitVec 64 := 4096

/-! ### Kernel code -/

/-- Kernel code: it reads and writes the world, and a `panic` ends it. -/
abbrev Code := ExceptT String (StateM World)

def World.write (w : World) (f : Hart → Hart) : World :=
  { w with hart := f w.hart, seen := w.seen ++ [f w.hart] }

def read {α : Type} (g : World → α) : Code α := return g (← get)
def update (f : World → World) : Code Unit := modify f
/-- A write to the hart's registers, recorded in `seen`. -/
def write (f : Hart → Hart) : Code Unit := modify fun w => w.write f

def Code.run {α : Type} (c : Code α) (w : World) : Except String α × World := (ExceptT.run c).run w

/-! The equations below are stated as rewrites (`id rfl`), so that simp does not leave the kernel to
unfold the monad at each use. -/

@[simp] theorem read_bind {α β : Type} (g : World → β) (k : β → Code α) (w : World) :
    (read g >>= k).run w = (k (g w)).run w := id rfl
@[simp] theorem update_bind {α : Type} (f : World → World) (k : Unit → Code α) (w : World) :
    (update f >>= k).run w = (k ()).run (f w) := id rfl
@[simp] theorem write_bind {α : Type} (f : Hart → Hart) (k : Unit → Code α) (w : World) :
    (write f >>= k).run w = (k ()).run (w.write f) := id rfl
@[simp] theorem throw_bind {α β : Type} (e : String) (k : β → Code α) (w : World) :
    ((throw e : Code β) >>= k).run w = (.error e, w) := id rfl
@[simp] theorem pure_run {α : Type} (a : α) (w : World) : (pure a : Code α).run w = (.ok a, w) :=
  id rfl
@[simp] theorem read_run {α : Type} (g : World → α) (w : World) : (read g).run w = (.ok (g w), w) :=
  id rfl
@[simp] theorem update_run (f : World → World) (w : World) : (update f).run w = (.ok (), f w) :=
  id rfl
@[simp] theorem write_run (f : Hart → Hart) (w : World) : (write f).run w = (.ok (), w.write f) :=
  id rfl
@[simp] theorem throw_run {α : Type} (e : String) (w : World) :
    (throw e : Code α).run w = (.error e, w) := id rfl

@[simp] theorem ite_bind {α β : Type} (c : Prop) [Decidable c] (a b : Code β) (k : β → Code α)
    (w : World) :
    ((if c then a else b) >>= k).run w = if c then (a >>= k).run w else (b >>= k).run w := by
  split <;> rfl

@[simp] theorem ite_run {α : Type} (c : Prop) [Decidable c] (a b : Code α) (w : World) :
    (if c then a else b).run w = if c then a.run w else b.run w := by
  split <;> rfl

theorem bind_run {α β : Type} (c : Code β) (k : β → Code α) (w : World) :
    (c >>= k).run w = match c.run w with
      | (.ok a, w') => (k a).run w'
      | (.error e, w') => (.error e, w') := by
  show (c >>= k).run w = match c w with
    | (.ok a, w') => (k a).run w'
    | (.error e, w') => (.error e, w')
  simp only [Code.run, ExceptT.run, bind, ExceptT.bind, ExceptT.mk, ExceptT.bindCont, StateT.run,
    StateT.bind]
  rcases c w with ⟨a | a, w'⟩ <;> rfl

@[simp] theorem World.write_hart (w : World) (f : Hart → Hart) : (w.write f).hart = f w.hart := rfl
@[simp] theorem World.write_proc (w : World) (f : Hart → Hart) : (w.write f).proc = w.proc := rfl
@[simp] theorem World.write_ticks (w : World) (f : Hart → Hart) : (w.write f).ticks = w.ticks := rfl
@[simp] theorem World.write_calls (w : World) (f : Hart → Hart) : (w.write f).calls = w.calls := rfl
@[simp] theorem World.write_seen (w : World) (f : Hart → Hart) :
    (w.write f).seen = w.seen ++ [f w.hart] := rfl

/-! ### `riscv.h`: register access (not among the sources) -/

def r_sstatus : Code (BitVec 64) := read (·.hart.sstatus)
def w_sstatus (x : BitVec 64) : Code Unit := write fun h => { h with sstatus := x }
def r_sepc : Code (BitVec 64) := read (·.hart.sepc)
def w_sepc (x : BitVec 64) : Code Unit := write fun h => { h with sepc := x }
def r_scause : Code (BitVec 64) := read (·.hart.scause)
def w_stvec (x : BitVec 64) : Code Unit := write fun h => { h with stvec := x }
def r_sip : Code (BitVec 64) := read (·.hart.sip)
def w_sip (x : BitVec 64) : Code Unit := write fun h => { h with sip := x }
def r_satp : Code (BitVec 64) := read (·.hart.satp)
def r_tp : Code (BitVec 64) := read (·.hart.regs 4)

def intr_on : Code Unit := do w_sstatus ((← r_sstatus) ||| SSTATUS_SIE)
def intr_off : Code Unit := do w_sstatus ((← r_sstatus) &&& ~~~SSTATUS_SIE)
def intr_get : Code Bool := do return (← r_sstatus) &&& SSTATUS_SIE != 0

/-! ### Collaborators in `proc.c` (not among the sources) -/

/-- `cpuid()` returns `r_tp()`, the hart id `usertrapret` saves for it. -/
def cpuid : Code (BitVec 64) := r_tp
def killed : Code Bool := read (·.proc.killed)
def setkilled : Code Unit := update fun w => { w with proc.killed := true }
def call (c : Call) : Code Unit := update fun w => { w with calls := w.calls ++ [c] }

/-- `yield()` gives up the hart. -/
def yield (yielded : Hart) : Code Unit := update fun w => { w with hart := yielded }

/-! ### The trampoline, as the spec describes it (`trampoline.S` is not among the sources) -/

/-- `uservec`: save the user's registers in the trap frame, load the kernel stack pointer, hart id
and page table from it, and jump to its `kernel_trap`. -/
def uservec : Code Unit := do
  let tf ← read (·.proc.trapframe)
  let regs ← read (·.hart.regs)
  update fun w => { w with proc.trapframe.regs := regs }
  write fun h => { h with
    regs := Function.update (Function.update h.regs 2 tf.kernel_sp) 4 tf.kernel_hartid
    satp := tf.kernel_satp
    pc := tf.kernel_trap }

/-- `userret(satp)`: switch to the user page table, restore the user's registers from the trap frame, and `sret`. -/
def userret (satp : BitVec 64) : Code Unit := do
  write fun h => { h with satp := satp }
  let tf ← read (·.proc.trapframe)
  write fun h => { h with regs := tf.regs }
  write Hart.sret

/-! ### `trap.c` -/

/-- `trapinithart()`: traps taken in the kernel go to `kernelvec`. -/
def trapinithart (L : Layout) : Code Unit := w_stvec L.kernelvec

/-- `clockintr()`, under `tickslock`. -/
def clockintr : Code Unit := do
  update fun w => { w with ticks := w.ticks + 1 }
  call .wakeup_ticks

/-- `devintr()`, with `irq` what `plic_claim()` answers. -/
def devintr (L : Layout) (irq : Int) : Code Int := do
  let scause ← r_scause
  if scause &&& 0x8000000000000000 ≠ 0 ∧ scause &&& 0xff = 9 then
    call (.plic_claim irq)
    if irq = L.UART0_IRQ then call .uartintr
    else if irq = L.VIRTIO0_IRQ then call .virtio_disk_intr
    if irq ≠ 0 then call (.plic_complete irq)
    return 1
  else if scause = 0x8000000000000001 then
    if (← cpuid) = 0 then clockintr
    w_sip ((← r_sip) &&& ~~~2)
    return 2
  else
    return 0

/-- Where control goes when a piece of the trap code is done. -/
inductive Next
  | exit
  | syscall
  | handled (which_dev : Int)
  | usertrapret
  deriving DecidableEq

/-- `usertrap()` up to line 76: the cause is dispatched, and the process exits, enters `syscall()`
with interrupts on, or reaches the `killed` check with `which_dev`. -/
def usertrap (L : Layout) (irq : Int) : Code Next := do
  if (← r_sstatus) &&& SSTATUS_SPP ≠ 0 then throw "usertrap: not from user mode"
  w_stvec L.kernelvec
  let epc ← r_sepc
  update fun w => { w with proc.trapframe.epc := epc }
  if (← r_scause) = 8 then
    if (← killed) then return .exit
    update fun w => { w with proc.trapframe.epc := w.proc.trapframe.epc + 4 }
    intr_on
    return .syscall
  else
    let which_dev ← devintr L irq
    if which_dev = 0 then setkilled
    return .handled which_dev

/-- `usertrap()` from line 78, once the cause is handled. -/
def usertrapTail (which_dev : Int) (yielded : Hart) : Code Next := do
  if (← killed) then return .exit
  if which_dev = 2 then yield yielded
  return .usertrapret

/-- `usertrapret()`, ending in the trampoline's `userret`. -/
def usertrapret (L : Layout) : Code Unit := do
  let p ← read (·.proc)
  intr_off
  w_stvec L.trampoline_uservec
  let kernel_satp ← r_satp
  let kernel_hartid ← r_tp
  update fun w => { w with proc.trapframe := { w.proc.trapframe with
    kernel_satp := kernel_satp
    kernel_sp := p.kstack + PGSIZE
    kernel_trap := L.usertrap
    kernel_hartid := kernel_hartid } }
  let x ← r_sstatus
  let x := x &&& ~~~SSTATUS_SPP
  let x := x ||| SSTATUS_SPIE
  w_sstatus x
  w_sepc (← read (·.proc.trapframe.epc))
  let satp := MAKE_SATP p.pagetable
  userret satp

/-- `kerneltrap()`, with `running` for `myproc() != 0 && myproc()->state == RUNNING`. -/
def kerneltrap (L : Layout) (irq : Int) (running : Bool) (yielded : Hart) : Code Unit := do
  let sepc ← r_sepc
  let sstatus ← r_sstatus
  if sstatus &&& SSTATUS_SPP = 0 then throw "kerneltrap: not from supervisor mode"
  if (← intr_get) then throw "kerneltrap: interrupts enabled"
  let which_dev ← devintr L irq
  if which_dev = 0 then throw "kerneltrap"
  if which_dev = 2 ∧ running then yield yielded
  w_sepc sepc
  w_sstatus sstatus

/-- `kernelvec` (`kernelvec.S`, not among the sources, as `trap.c` uses it). -/
def kernelvec (L : Layout) (irq : Int) (running : Bool) (yielded : Hart) : Code Unit := do
  let saved ← read (·.hart.regs)
  kerneltrap L irq running yielded
  write fun h => { h with regs := Function.update saved 4 (h.regs 4) }
  write Hart.sret

/-! ### What the trap code keeps -/

/-- A trap taken in state `h` goes where it should. -/
def Routed (L : Layout) (h : Hart) : Prop :=
  (h.priv = .user → h.stvec = L.trampoline_uservec) ∧
  (h.priv = .supervisor → h.intrOn → h.stvec = L.kernelvec)

/-- Every state the trap code left the hart in routed traps where they should go. -/
def Clean (L : Layout) (w : World) : Prop := ∀ h ∈ w.seen, Routed L h

/-- The hart as the kernel runs on it. -/
structure Kernel (L : Layout) (h : Hart) : Prop where
  priv : h.priv = .supervisor
  stvec : h.stvec = L.kernelvec
  satp : h.satp = L.kernelSatp
  tp : h.regs 4 = h.mhartid

/-- A process in user mode, set up for its next trap. -/
structure User (L : Layout) (w : World) : Prop where
  priv : w.hart.priv = .user
  stvec : w.hart.stvec = L.trampoline_uservec
  intrOn : w.hart.intrOn
  satp : w.hart.satp = MAKE_SATP w.proc.pagetable
  kernel_satp : w.proc.trapframe.kernel_satp = L.kernelSatp
  kernel_sp : w.proc.trapframe.kernel_sp = w.proc.kstack + PGSIZE
  kernel_trap : w.proc.trapframe.kernel_trap = L.usertrap
  kernel_hartid : w.proc.trapframe.kernel_hartid = w.hart.mhartid

/-- The causes `devintr` recognises. -/
def Recognised (scause : BitVec 64) : Prop :=
  (scause &&& 0x8000000000000000 ≠ 0 ∧ scause &&& 0xff = 9) ∨ scause = 0x8000000000000001

instance : DecidablePred Recognised := fun _ => inferInstanceAs (Decidable (_ ∨ _))

theorem routed_of_kernelvec {L : Layout} {h : Hart} (priv : h.priv = .supervisor)
    (stvec : h.stvec = L.kernelvec) : Routed L h :=
  ⟨fun user => by simp [priv] at user, fun _ _ => stvec⟩

theorem routed_of_off {L : Layout} {h : Hart} (priv : h.priv = .supervisor)
    (off : h.sstatus.getLsbD 1 = false) : Routed L h :=
  ⟨fun user => by simp [priv] at user, fun _ enabled => by simp [off] at enabled⟩

theorem routed_snoc {L : Layout} {l : List Hart} {h : Hart} (clean : ∀ x ∈ l, Routed L x)
    (routed : Routed L h) : ∀ x ∈ l ++ [h], Routed L x := by
  simpa only [List.forall_mem_append, List.forall_mem_singleton] using ⟨clean, routed⟩

theorem Kernel.routed {L : Layout} {h : Hart} (kernel : Kernel L h) : Routed L h :=
  routed_of_kernelvec kernel.priv kernel.stvec

theorem devintr_spec {L : Layout} {irq : Int} {w : World} {r : Except String Int × World}
    (run : (devintr L irq).run w = r) :
    ∃ d w', r = (.ok d, w') ∧ w'.proc = w.proc ∧ w'.hart = { w.hart with sip := w'.hart.sip } ∧
      (w'.seen = w.seen ∨ w'.seen = w.seen ++ [w'.hart]) ∧
      (d = 0 ↔ ¬Recognised w.hart.scause) ∧ (d = 2 ↔ w.hart.scause = 0x8000000000000001) := by
  have external_ne : w.hart.scause &&& 0xff = 9 → w.hart.scause ≠ 0x8000000000000001 := by
    rintro nine same
    rw [same] at nine
    exact absurd nine (by decide)
  subst run
  simp only [devintr, r_scause, r_sip, cpuid, r_tp, clockintr, call, w_sip, read_bind, update_bind,
    write_bind, ite_bind, ite_run, pure_bind, bind_assoc, update_run, pure_run, write_run]
  by_cases device : w.hart.scause &&& 0x8000000000000000 ≠ 0 ∧ w.hart.scause &&& 0xff = 9
  · have one : ((1 : Int) = 0 ↔ ¬Recognised w.hart.scause) ∧
        ((1 : Int) = 2 ↔ w.hart.scause = 0x8000000000000001) :=
      ⟨iff_of_false (by decide) (not_not.mpr (.inl device)), iff_of_false (by decide) (external_ne device.2)⟩
    rw [if_pos device]
    split
    · split <;> exact ⟨1, _, rfl, rfl, rfl, .inl rfl, one⟩
    · split <;> split <;> exact ⟨1, _, rfl, rfl, rfl, .inl rfl, one⟩
  · rw [if_neg device]
    by_cases timer : w.hart.scause = 0x8000000000000001
    · have two : ((2 : Int) = 0 ↔ ¬Recognised w.hart.scause) ∧
          ((2 : Int) = 2 ↔ w.hart.scause = 0x8000000000000001) :=
        ⟨iff_of_false (by decide) (not_not.mpr (.inr timer)), iff_of_true rfl timer⟩
      rw [if_pos timer]
      split <;> exact ⟨2, _, rfl, rfl, rfl, .inr rfl, two⟩
    · rw [if_neg timer]
      exact ⟨0, w, rfl, rfl, rfl, .inl rfl, iff_of_true rfl (·.elim device timer),
        iff_of_false (by decide) timer⟩

theorem usertrap_spec (L : Layout) (irq : Int) (w : World) (priv : w.hart.priv = .supervisor)
    (spp : w.hart.sstatus.getLsbD 8 = false) (satp : w.hart.satp = L.kernelSatp)
    (tp : w.hart.regs 4 = w.hart.mhartid) (clean : Clean L w) :
    ∃ next w', (usertrap L irq).run w = (.ok next, w') ∧ Clean L w' ∧ Kernel L w'.hart ∧
      w'.hart.pc = w.hart.pc ∧ w'.hart.regs = w.hart.regs ∧
      ((w.hart.scause = 8 ∧ w.proc.killed ∧ next = .exit) ∨
       (w.hart.scause = 8 ∧ w.proc.killed = false ∧ next = .syscall ∧
         w'.proc = { w.proc with trapframe.epc := w.hart.sepc + 4 }) ∨
       (w.hart.scause ≠ 8 ∧ ∃ d, next = .handled d ∧ (d = 0 ↔ ¬Recognised w.hart.scause) ∧
         (d = 2 ↔ w.hart.scause = 0x8000000000000001) ∧
         w'.proc = { w.proc with trapframe.epc := w.hart.sepc, killed := w.proc.killed || d == 0 })) := by
  have fromUser : w.hart.sstatus &&& SSTATUS_SPP = 0 := by simpa using spp
  have entered : Routed L { w.hart with stvec := L.kernelvec } := routed_of_kernelvec priv rfl
  simp only [usertrap, r_sstatus, r_sepc, r_scause, w_stvec, killed, setkilled, intr_on, w_sstatus,
    read_bind, update_bind, write_bind, ite_bind, ite_run, pure_bind, bind_assoc, update_run, pure_run,
    write_run, read_run, throw_bind, fromUser, ne_eq, not_true_eq_false, if_false, World.write_hart,
    World.write_proc, World.write_seen, bind_run]
  split_ifs with ecall dead
  · exact ⟨_, _, rfl, routed_snoc clean entered, ⟨priv, rfl, satp, tp⟩, rfl, rfl,
      .inl ⟨ecall, dead, rfl⟩⟩
  · exact ⟨_, _, rfl, routed_snoc (routed_snoc clean entered) (routed_of_kernelvec priv rfl),
      ⟨priv, rfl, satp, tp⟩, rfl, rfl, .inr (.inl ⟨ecall, by simpa using dead, rfl, rfl⟩)⟩
  · split
    next d w' run =>
      obtain ⟨_, _, same, proc, hart, seen, zero, two⟩ := devintr_spec run
      cases same
      simp only at proc hart zero two seen
      have kernel : Kernel L w'.hart := by rw [hart]; exact ⟨priv, rfl, satp, tp⟩
      have clean' : Clean L w' := by
        rcases seen with seen | seen <;> simp only [Clean, seen]
        exacts [routed_snoc clean entered, routed_snoc (routed_snoc clean entered) kernel.routed]
      have pc : w'.hart.pc = w.hart.pc := by rw [hart]
      have regs : w'.hart.regs = w.hart.regs := by rw [hart]
      by_cases none : d = 0
      · subst none
        simp only [setkilled, if_true, update_bind, pure_run]
        refine ⟨_, _, rfl, clean', kernel, pc, regs, .inr (.inr ⟨ecall, 0, rfl, zero, two, ?_⟩)⟩
        simp [proc]
      · simp only [none, if_false, pure_bind, pure_run]
        refine ⟨_, _, rfl, clean', kernel, pc, regs, .inr (.inr ⟨ecall, d, rfl, zero, two, ?_⟩)⟩
        simp [proc, none]
    next e w' run =>
      obtain ⟨_, _, same, -⟩ := devintr_spec run
      cases same

theorem kernelvec_return {L : Layout} {v : World} {entry : Hart} (kernel : Kernel L v.hart)
    (fromKernel : entry.sstatus.getLsbD 8 = true) (clean : Clean L v) :
    let v' := (((v.write fun h => { h with sepc := entry.sepc }).write
      fun h => { h with sstatus := entry.sstatus }).write
      fun h => { h with regs := Function.update entry.regs 4 (h.regs 4) }).write Hart.sret
    Clean L v' ∧ Kernel L v'.hart ∧ v'.hart.pc = entry.sepc ∧
      v'.hart.intrOn = entry.sstatus.getLsbD 5 ∧ ∀ i, i ≠ 4 → v'.hart.regs i = entry.regs i := by
  obtain ⟨priv, stvec, satp, tp⟩ := kernel
  have kvec : ∀ h : Hart, h.priv = .supervisor → h.stvec = L.kernelvec → Routed L h :=
    fun _ => routed_of_kernelvec
  refine ⟨?_, ⟨?_, ?_, ?_, ?_⟩, ?_, ?_, fun i ne => ?_⟩
  · exact routed_snoc (routed_snoc (routed_snoc (routed_snoc clean (kvec _ priv stvec))
      (kvec _ priv stvec)) (kvec _ priv stvec))
      (kvec _ (by simp [Hart.sret, fromKernel]) (by simp [Hart.sret, stvec]))
  all_goals simp [World.write, Hart.sret, priv, stvec, satp, tp, fromKernel]
  exact Function.update_noteq ne _ _

theorem kernelvec_spec (L : Layout) (cause : BitVec 64) (irq : Int) (running : Bool)
    (yielded : Hart) (w : World) (kernel : Kernel L w.hart) (yk : Kernel L yielded)
    (clean : Clean L w) :
    ∃ r w', (kernelvec L irq running yielded).run (w.write (·.trap cause)) = (r, w') ∧
      Clean L w' ∧ w'.proc = w.proc ∧
      ((r = .error "kerneltrap" ∧ ¬Recognised cause) ∨
       (r = .ok () ∧ Recognised cause ∧ Kernel L w'.hart ∧ w'.hart.pc = w.hart.pc ∧
         w'.hart.intrOn = w.hart.intrOn ∧ ∀ i, i ≠ 4 → w'.hart.regs i = w.hart.regs i)) := by
  have fromKernel : (w.hart.trap cause).sstatus &&& SSTATUS_SPP = 0 ↔ False := by
    simp [Hart.trap, kernel.priv]
  have off : (w.hart.trap cause).sstatus &&& SSTATUS_SIE != 0 ↔ False := by
    simp [Hart.trap]
  have entry : Routed L (w.hart.trap cause) :=
    routed_of_off (by simp [Hart.trap]) (by simp [Hart.trap])
  simp only [kernelvec, kerneltrap, r_sepc, r_sstatus, intr_get, w_sepc, w_sstatus, yield,
    read_bind, update_bind, write_bind, ite_bind, ite_run, pure_bind, bind_assoc, update_run, pure_run,
    write_run, read_run, throw_bind, World.write_hart, World.write_proc, World.write_seen,
    fromKernel, off, if_false]
  rw [bind_run]
  split
  next d w' run =>
    obtain ⟨_, _, same, proc, hart, seen, zero, two⟩ := devintr_spec run
    cases same
    simp only [World.write_hart, World.write_proc, World.write_seen] at proc hart zero two seen
    have clean' : Clean L w' := by
      rcases seen with seen | seen <;> simp only [Clean, seen]
      · exact routed_snoc clean entry
      · refine routed_snoc (routed_snoc clean entry) ?_
        rw [hart]
        exact routed_of_off (by simp [Hart.trap]) (by simp [Hart.trap])
    by_cases none : d = 0
    · subst none
      simp only [if_true, throw_bind]
      exact ⟨_, _, rfl, clean', proc, .inl ⟨rfl, by simpa [Hart.trap] using zero⟩⟩
    · simp only [none, if_false, ite_run, write_bind, update_bind, write_run, bind_assoc]
      have recognised : Recognised cause := by simpa [Hart.trap] using (not_congr zero).mp none
      have spp : (w.hart.trap cause).sstatus.getLsbD 8 = true := by simp [Hart.trap, kernel.priv]
      have spie : (w.hart.trap cause).sstatus.getLsbD 5 = w.hart.intrOn := by simp [Hart.trap]
      have kw : Kernel L w'.hart := by
        rw [hart]
        exact ⟨by simp [Hart.trap], kernel.stvec, kernel.satp, kernel.tp⟩
      split_ifs
      · obtain ⟨c, k, pc, enabled, regs⟩ :=
          @kernelvec_return L { w' with hart := yielded } (w.hart.trap cause) yk spp clean'
        refine ⟨_, _, rfl, c, proc, .inr ⟨rfl, recognised, k, pc, enabled.trans spie, fun i ne => ?_⟩⟩
        simpa [Hart.trap] using regs i ne
      · obtain ⟨c, k, pc, enabled, regs⟩ := @kernelvec_return L w' (w.hart.trap cause) kw spp clean'
        refine ⟨_, _, rfl, c, proc, .inr ⟨rfl, recognised, k, pc, enabled.trans spie, fun i ne => ?_⟩⟩
        simpa [Hart.trap] using regs i ne
  next e w' run =>
    obtain ⟨_, _, same, -⟩ := devintr_spec run
    cases same

theorem usertrapret_spec (L : Layout) (w : World) (kernel : Kernel L w.hart) (clean : Clean L w) :
    let w' := ((usertrapret L).run w).2
    User L w' ∧ Clean L w' ∧ w'.hart.pc = w.proc.trapframe.epc ∧
      w'.hart.regs = w.proc.trapframe.regs ∧ w'.hart.mhartid = w.hart.mhartid ∧
      w'.proc = { w.proc with trapframe := { w.proc.trapframe with
        kernel_satp := L.kernelSatp
        kernel_sp := w.proc.kstack + PGSIZE
        kernel_trap := L.usertrap
        kernel_hartid := w.hart.mhartid } } := by
  obtain ⟨priv, stvec, satp, tp⟩ := kernel
  simp only [usertrapret, intr_off, r_sstatus, w_sstatus, w_stvec, r_satp, r_tp, w_sepc, userret,
    read_bind, write_bind, update_bind, write_run, bind_assoc, pure_bind]
  refine ⟨⟨?priv, ?_, ?intrOn, ?_, ?_, ?_, ?_, ?_⟩, ?clean, ?_, ?_, ?_, ?_⟩
  case clean =>
    simp only [Clean, World.write, List.append_assoc, List.singleton_append,
      List.forall_mem_append] at clean ⊢
    exact ⟨clean, by simp [Routed, Hart.sret, priv]⟩
  all_goals simp only [World.write_hart, World.write_proc, Hart.sret, satp, tp]
  -- what is left is that `sret` finds `SPP` cleared and `SPIE` set
  all_goals simp

end Xv6.Trap
