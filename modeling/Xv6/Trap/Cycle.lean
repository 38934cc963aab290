import Xv6.Trap

/-!
# A process's trap cycle

One process's thread, on whichever hart runs it: in user mode, it runs its code until the hart traps;
the hart then enters the kernel at `stvec`. `uservec` goes on to `usertrap`, which sends a system call
to `syscall()`, whose code (outside the sources) runs with interrupts on and may take traps of its
own, which `kernelvec` and `kerneltrap` handle; then the killed check, `yield` on a timer interrupt,
and `usertrapret` back to user mode. The process begins at `forkret`'s call of `usertrapret`, and at
any time another process may `kill` it.

Code outside the sources is bound only by what the kernel keeps on every hart (`Kernel`): `syscall()`
may rewrite the trap frame, the page table and set `killed`, and `yield` may resume the thread on
another hart.

`trap_routing` shows that over every run each state the trap code leaves a hart in routes traps
right, that user mode is always set up for the next trap, and that of the trap code's panics only
`kerneltrap`'s on a cause it does not recognise can happen. `kernel_trap_transparent` and
`user_interrupt_transparent` show that an interrupt returns to the code it interrupted as it was, and
`killed_never_resumes` that a killed process does not run in user mode after its next trap.
-/

namespace Xv6.Trap

/-- Where the process's thread is. -/
inductive Place
  | user
  | syscall
  | handled (which_dev : Int)
  | ret
  | exited
  | panicked (msg : String)
  | lost
  deriving DecidableEq

def Place.ofNext : Next → Place
  | .exit => .exited
  | .syscall => .syscall
  | .handled which_dev => .handled which_dev
  | .usertrapret => .ret

/-- In the kernel, in `usertrap`, in code it calls, or before `usertrapret`. -/
def Place.kernel : Place → Bool
  | .syscall | .handled _ | .ret => true
  | _ => false

/-- Neither exited nor stopped. -/
def Place.live : Place → Bool
  | .user | .syscall | .handled _ | .ret => true
  | _ => false

structure Thread where
  world : World
  place : Place

/-- Where kernel code hands control on, or the panic it stopped in. -/
def Thread.enter : Except String Next × World → Thread
  | (.ok next, w) => ⟨w, .ofNext next⟩
  | (.error msg, w) => ⟨w, .panicked msg⟩

/-- The hart takes a trap with `cause`, and jumps to `stvec`. -/
def Thread.trap (L : Layout) (s : Thread) (cause : BitVec 64) (irq : Int) (running : Bool)
    (yielded : Hart) : Thread :=
  let w := s.world.write (·.trap cause)
  if w.hart.pc = L.trampoline_uservec then
    let w := (uservec.run w).2
    if w.hart.pc = L.usertrap then Thread.enter ((usertrap L irq).run w) else ⟨w, .lost⟩
  else if w.hart.pc = L.kernelvec then
    match (kernelvec L irq running yielded).run w with
    | (.ok (), w) => ⟨w, s.place⟩
    | (.error msg, w) => ⟨w, .panicked msg⟩
  else ⟨w, .lost⟩

inductive Event
  /-- User code runs on to `pc`, with `regs`. -/
  | user (pc : BitVec 64) (regs : Fin 32 → BitVec 64)
  /-- The hart traps, with the PLIC's `irq`, `running` for `kerneltrap`, and the hart `yield`
  resumes on. -/
  | trap (cause : BitVec 64) (irq : Int) (running : Bool) (yielded : Hart)
  /-- `syscall()`'s code runs on. -/
  | kernel (hart : Hart) (proc : Proc)
  /-- `syscall()` returns. -/
  | sysret
  /-- `usertrap` from line 78. -/
  | finish (yielded : Hart)
  | usertrapret
  /-- Another process calls `kill`. -/
  | kill

def Thread.step (L : Layout) (s : Thread) : Event → Thread
  | .user pc regs => { s with world.hart := { s.world.hart with pc := pc, regs := regs } }
  | .trap cause irq running yielded => s.trap L cause irq running yielded
  | .kernel hart proc => { s with world.hart := hart, world.proc := proc }
  | .sysret => { s with place := .handled 0 }
  | .finish yielded =>
    match s.place with
    | .handled which_dev => Thread.enter ((usertrapTail which_dev yielded).run s.world)
    | _ => s
  | .usertrapret => ⟨((usertrapret L).run s.world).2, .user⟩
  | .kill => { s with world.proc.killed := true }

/-- `scause`'s top bit: the trap is an interrupt. -/
def isInterrupt (cause : BitVec 64) : Bool := cause &&& 0x8000000000000000 != 0

/-- When each event can happen. -/
def Thread.Allowed (L : Layout) (s : Thread) : Event → Prop
  | .user .. => s.place = .user
  | .trap cause _ _ yielded => Kernel L yielded ∧
      (s.place = .user ∨ s.place.kernel ∧
        (isInterrupt cause ∧ s.world.hart.intrOn ∨ !isInterrupt cause ∧ s.place = .syscall))
  | .kernel hart proc => s.place = .syscall ∧ Kernel L hart ∧ proc.kstack = s.world.proc.kstack ∧
      (s.world.proc.killed → proc.killed)
  | .sysret => s.place = .syscall
  | .finish yielded => Kernel L yielded ∧ ∃ which_dev, s.place = .handled which_dev
  | .usertrapret => s.place = .ret
  | .kill => s.place.live

/-- The runs of the process from `forkret`, which calls `usertrapret` on a hart the kernel runs on. -/
inductive Thread.Reachable (L : Layout) : Thread → Prop
  | forkret (w : World) (kernel : Kernel L w.hart) (fresh : w.seen = []) : Reachable L ⟨w, .ret⟩
  | step {s : Thread} (e : Event) : Reachable L s → s.Allowed L e → Reachable L (s.step L e)

/-- Runs from `s` to `s'`. -/
inductive Thread.Runs (L : Layout) : Thread → Thread → Prop
  | refl (s : Thread) : Runs L s s
  | step {s s' : Thread} (e : Event) : s.Allowed L e → Runs L (s.step L e) s' → Runs L s s'

/-! ### The invariant -/

/-- What holds at each place: user mode is set up for the next trap, the kernel runs on a hart as
the kernel keeps it, and the only panic is `kerneltrap`'s. -/
def Place.Holds (L : Layout) (w : World) : Place → Prop
  | .user => User L w
  | .syscall | .handled _ | .ret => Kernel L w.hart
  | .exited => True
  | .panicked msg => msg = "kerneltrap"
  | .lost => False

theorem Place.holds_kernel {L : Layout} {w : World} {p : Place} (kernel : p.kernel) :
    p.Holds L w ↔ Kernel L w.hart := by
  cases p <;> simp_all [Place.kernel, Place.Holds]

structure Thread.Inv (L : Layout) (s : Thread) : Prop where
  clean : Clean L s.world
  holds : s.place.Holds L s.world

theorem Thread.trap_user {L : Layout} {s : Thread} (cause : BitVec 64) (irq : Int) (running : Bool)
    (yielded : Hart) (ready : User L s.world) (clean : Clean L s.world) :
    let s' := s.trap L cause irq running yielded
    let p := s.world.proc
    Clean L s'.world ∧
      ((cause = 8 ∧ p.killed ∧ s'.place = .exited) ∨
       (cause = 8 ∧ p.killed = false ∧ s'.place = .syscall ∧ Kernel L s'.world.hart ∧
         s'.world.proc = { p with trapframe.epc := s.world.hart.pc + 4,
                                  trapframe.regs := s.world.hart.regs }) ∨
       (cause ≠ 8 ∧ ∃ d, s'.place = .handled d ∧ Kernel L s'.world.hart ∧
         (d = 0 ↔ ¬Recognised cause) ∧ (d = 2 ↔ cause = 0x8000000000000001) ∧
         s'.world.proc = { p with trapframe.epc := s.world.hart.pc,
                                  trapframe.regs := s.world.hart.regs,
                                  killed := p.killed || d == 0 })) := by
  obtain ⟨priv, stvec, -, -, kernel_satp, -, kernel_trap, kernel_hartid⟩ := ready
  simp only [Thread.trap]
  rw [if_pos (by simp [Hart.trap, stvec])]
  generalize entered : (uservec.run (s.world.write (·.trap cause))).2 = w
  have facts : w.hart.priv = .supervisor ∧ w.hart.sstatus.getLsbD 8 = false ∧
      w.hart.satp = L.kernelSatp ∧ w.hart.regs 4 = w.hart.mhartid ∧ w.hart.pc = L.usertrap ∧
      w.hart.sepc = s.world.hart.pc ∧ w.hart.scause = cause ∧
      w.proc = { s.world.proc with trapframe.regs := s.world.hart.regs } ∧ Clean L w := by
    subst entered
    simp only [uservec, read_bind, update_bind, write_run, World.write_hart, World.write_proc]
    refine ⟨rfl, by simp [Hart.trap, priv], kernel_satp, ?_, kernel_trap, rfl, rfl, rfl, ?_⟩
    · simp [World.write, kernel_hartid, Hart.trap]
    · exact routed_snoc (routed_snoc clean (routed_of_off rfl (by simp [Hart.trap])))
        (routed_of_off rfl (by simp [Hart.trap]))
  obtain ⟨priv', spp, satp, tp, pc, sepc, scause, proc, clean'⟩ := facts
  obtain ⟨next, w', run, clean'', kernel, -, -, cases⟩ := usertrap_spec L irq w priv' spp satp tp clean'
  rw [if_pos pc, run]
  simp only [proc, sepc, scause] at cases
  refine ⟨clean'', ?_⟩
  rcases cases with ⟨ecall, dead, rfl⟩ | ⟨ecall, alive, rfl, same⟩ | ⟨ecall, d, rfl, zero, two, same⟩
  · exact .inl ⟨ecall, dead, rfl⟩
  · exact .inr (.inl ⟨ecall, alive, rfl, kernel, same⟩)
  · exact .inr (.inr ⟨ecall, d, rfl, kernel, zero, two, same⟩)

theorem Thread.trap_kernel {L : Layout} {s : Thread} (cause : BitVec 64) (irq : Int)
    (running : Bool) (yielded : Hart) (kernel : Kernel L s.world.hart) (yk : Kernel L yielded)
    (clean : Clean L s.world) :
    let s' := s.trap L cause irq running yielded
    Clean L s'.world ∧ s'.world.proc = s.world.proc ∧
      ((s'.place = .panicked "kerneltrap" ∧ ¬Recognised cause) ∨
       (s'.place = s.place ∧ Recognised cause ∧ Kernel L s'.world.hart ∧
         s'.world.hart.pc = s.world.hart.pc ∧ s'.world.hart.intrOn = s.world.hart.intrOn ∧
         ∀ i, i ≠ 4 → s'.world.hart.regs i = s.world.hart.regs i)) := by
  obtain ⟨r, w', run, clean', proc, cases⟩ :=
    kernelvec_spec L cause irq running yielded s.world kernel yk clean
  have pc : (s.world.write (·.trap cause)).hart.pc = L.kernelvec := by simp [Hart.trap, kernel.stvec]
  simp only [Thread.trap]
  rw [if_neg (by rw [pc]; exact L.vectors_ne), if_pos pc, run]
  rcases cases with ⟨rfl, unknown⟩ | ⟨rfl, known⟩
  · exact ⟨clean', proc, .inl ⟨rfl, unknown⟩⟩
  · exact ⟨clean', proc, .inr ⟨rfl, known⟩⟩

theorem usertrapTail_run (which_dev : Int) (yielded : Hart) (w : World) :
    (usertrapTail which_dev yielded).run w =
      if w.proc.killed then (.ok .exit, w)
      else if which_dev = 2 then (.ok .usertrapret, { w with hart := yielded })
      else (.ok .usertrapret, w) := by
  simp only [usertrapTail, killed, yield, read_bind, ite_bind, ite_run, pure_bind, pure_run,
    update_bind]

theorem Thread.Inv.step {L : Layout} {s : Thread} (inv : s.Inv L) {e : Event}
    (allowed : s.Allowed L e) : (s.step L e).Inv L := by
  obtain ⟨clean, holds⟩ := inv
  cases e with
  | user pc regs =>
    have place : s.place = .user := allowed
    have user : User L s.world := by rw [place] at holds; exact holds
    refine ⟨clean, ?_⟩
    simp only [Thread.step, place, Place.Holds]
    exact ⟨user.priv, user.stvec, user.intrOn, user.satp, user.kernel_satp, user.kernel_sp,
      user.kernel_trap, user.kernel_hartid⟩
  | trap cause irq running yielded =>
    obtain ⟨yk, from_user | ⟨kernel, -⟩⟩ := allowed
    · rw [from_user] at holds
      obtain ⟨clean', cases⟩ := Thread.trap_user cause irq running yielded holds clean
      refine ⟨clean', ?_⟩
      rcases cases with ⟨-, -, place⟩ | ⟨-, -, place, k, -⟩ | ⟨-, d, place, k, -⟩
      · simp only [Thread.step, place, Place.Holds]
      all_goals simpa only [Thread.step, place, Place.Holds] using k
    · obtain ⟨clean', -, cases⟩ :=
        Thread.trap_kernel cause irq running yielded ((Place.holds_kernel kernel).mp holds) yk clean
      refine ⟨clean', ?_⟩
      rcases cases with ⟨place, -⟩ | ⟨place, -, k, -⟩
      · simp only [Thread.step, place, Place.Holds]
      · simpa only [Thread.step, place, Place.holds_kernel kernel] using k
  | kernel hart proc =>
    obtain ⟨place, k, -⟩ := allowed
    exact ⟨clean, by simpa only [Thread.step, place, Place.Holds] using k⟩
  | sysret =>
    have place : s.place = .syscall := allowed
    rw [place] at holds
    exact ⟨clean, holds⟩
  | finish yielded =>
    obtain ⟨yk, which_dev, place⟩ := allowed
    rw [place] at holds
    simp only [Thread.step, place, usertrapTail_run]
    split_ifs
    · exact ⟨clean, trivial⟩
    · exact ⟨clean, yk⟩
    · exact ⟨clean, holds⟩
  | usertrapret =>
    have place : s.place = .ret := allowed
    rw [place] at holds
    obtain ⟨user, clean', -⟩ := usertrapret_spec L s.world holds clean
    exact ⟨clean', user⟩
  | kill =>
    refine ⟨clean, ?_⟩
    cases h : s.place <;> rw [h] at holds <;> simp only [Thread.step, h, Place.Holds] at holds ⊢
    case user =>
      exact ⟨holds.priv, holds.stvec, holds.intrOn, holds.satp, holds.kernel_satp, holds.kernel_sp,
        holds.kernel_trap, holds.kernel_hartid⟩
    all_goals exact holds

theorem Thread.Reachable.inv {L : Layout} {s : Thread} (reach : s.Reachable L) : s.Inv L := by
  induction reach with
  | forkret w kernel fresh => exact ⟨by simp [Clean, fresh], kernel⟩
  | step e _ allowed inv => exact inv.step allowed

/-! ### Runs -/

/-- A killed process in the kernel past `usertrap`'s dispatch, or one that has exited or stopped. -/
def Thread.Doomed (s : Thread) : Prop :=
  s.world.proc.killed ∧ (s.place = .syscall ∨ ∃ d, s.place = .handled d) ∨ s.place = .exited ∨
    ∃ msg, s.place = .panicked msg

theorem Thread.Doomed.step {L : Layout} {s : Thread} (reach : s.Reachable L) (doomed : s.Doomed)
    {e : Event} (allowed : s.Allowed L e) : (s.step L e).Doomed := by
  rcases doomed with ⟨killed, place⟩ | dead
  · have kernel : s.place.kernel := by rcases place with h | ⟨_, h⟩ <;> simp [h, Place.kernel]
    cases e with
    | user => rcases place with h | ⟨_, h⟩ <;> simp [Thread.Allowed, h] at allowed
    | trap cause irq running yielded =>
      obtain ⟨yk, -⟩ := allowed
      obtain ⟨-, proc, ⟨same, -⟩ | ⟨same, -⟩⟩ := Thread.trap_kernel cause irq running yielded
        ((Place.holds_kernel kernel).mp reach.inv.holds) yk reach.inv.clean
      · exact .inr (.inr ⟨_, same⟩)
      · exact .inl ⟨by simpa only [Thread.step, proc] using killed, by simpa only [Thread.step, same]
          using place⟩
    | kernel hart proc =>
      obtain ⟨syscall, -, -, keeps⟩ := allowed
      exact .inl ⟨keeps killed, .inl syscall⟩
    | sysret => exact .inl ⟨killed, .inr ⟨0, rfl⟩⟩
    | finish yielded =>
      obtain ⟨-, which_dev, handled⟩ := allowed
      simp only [Thread.step, handled, usertrapTail_run, killed, if_true]
      exact .inr (.inl rfl)
    | usertrapret => rcases place with h | ⟨_, h⟩ <;> simp [Thread.Allowed, h] at allowed
    | kill => exact .inl ⟨rfl, place⟩
  · exfalso
    rcases dead with h | ⟨_, h⟩ <;> cases e <;>
      simp [Thread.Allowed, Place.kernel, Place.live, h] at allowed

theorem Thread.Runs.doomed {L : Layout} {s s' : Thread} (run : s.Runs L s') (reach : s.Reachable L)
    (doomed : s.Doomed) : s'.Doomed := by
  induction run with
  | refl => exact doomed
  | step e allowed _ ih => exact ih (.step e reach allowed) (doomed.step reach allowed)

theorem Thread.Doomed.not_user {s : Thread} (doomed : s.Doomed) : s.place ≠ .user := by
  rcases doomed with ⟨-, h | ⟨_, h⟩⟩ | h | ⟨_, h⟩ <;> simp [h]

theorem Thread.Reachable.user {L : Layout} {s : Thread} (reach : s.Reachable L)
    (user : s.place = .user) : User L s.world := by
  have holds := reach.inv.holds
  rw [user] at holds
  exact holds

/-- Over every run of a process, every state the trap code leaves a hart in routes traps where they should go. -/
theorem trap_routing {L : Layout} {s : Thread} (reach : s.Reachable L) :
    (∀ h ∈ s.world.seen, Routed L h) ∧ (s.place = .user → User L s.world) ∧
      (s.place.kernel → Kernel L s.world.hart) ∧ s.place ≠ .lost ∧
      ∀ msg, s.place = .panicked msg → msg = "kerneltrap" := by
  obtain ⟨clean, holds⟩ := reach.inv
  refine ⟨clean, reach.user, fun kernel => (Place.holds_kernel kernel).mp holds, fun lost => ?_,
    fun msg panicked => ?_⟩
  · rw [lost] at holds; exact holds
  · rw [panicked] at holds; exact holds

/-- A layout with xv6's addresses, and a process as `forkret` finds it on hart 0. -/
def sampleLayout : Layout where
  kernelvec := 0x80005000
  usertrap := 0x80002000
  TRAMPOLINE := 0x3FFFFFF000
  trampoline := 0x80007000
  uservec := 0x80007000
  userret := 0x8000709C
  kernelSatp := 0x8000000000087FFF
  UART0_IRQ := 10
  VIRTIO0_IRQ := 1
  vectors_ne := by decide

def bootHart : Hart :=
  ⟨.supervisor, 0x80001000, fun _ => 0, 0, 0, 0, 0x80005000, 0, 0x8000000000087FFF, 0⟩

def forkretThread : Thread :=
  ⟨⟨bootHart, ⟨⟨0, 0, 0, 0x1000, 0, fun _ => 0⟩, false, 0x3FFFFFD000, 0x87F00000⟩, 0, [], []⟩, .ret⟩

theorem bootHart_kernel : Kernel sampleLayout bootHart := ⟨rfl, rfl, rfl, rfl⟩

theorem forkretThread_reachable : forkretThread.Reachable sampleLayout :=
  .forkret _ bootHart_kernel rfl

theorem trap_routing_first_return :
    ∃ s : Thread, s.Reachable sampleLayout ∧ s.place = .user ∧
      (∀ h ∈ s.world.seen, Routed sampleLayout h) ∧ (s.place = .user → User sampleLayout s.world) ∧
      (s.place.kernel → Kernel sampleLayout s.world.hart) ∧ s.place ≠ .lost ∧
      ∀ msg, s.place = .panicked msg → msg = "kerneltrap" :=
  have reach := Thread.Reachable.step .usertrapret forkretThread_reachable rfl
  ⟨_, reach, rfl, trap_routing reach⟩

/-- A trap taken in the kernel panics exactly when `devintr` does not recognise its cause, and
otherwise comes back to the interrupted code as it was, whatever `yield` did in between. -/
theorem kernel_trap_transparent {L : Layout} {s : Thread} (reach : s.Reachable L)
    (kernel : s.place.kernel) (cause : BitVec 64) (irq : Int) (running : Bool) {yielded : Hart}
    (yk : Kernel L yielded) :
    let s' := s.step L (.trap cause irq running yielded)
    (s'.place = .panicked "kerneltrap" ∧ ¬Recognised cause) ∨
      (s'.place = s.place ∧ Recognised cause ∧ s'.world.proc = s.world.proc ∧ Kernel L s'.world.hart ∧
        s'.world.hart.pc = s.world.hart.pc ∧ s'.world.hart.intrOn = s.world.hart.intrOn ∧
        ∀ i, i ≠ 4 → s'.world.hart.regs i = s.world.hart.regs i) := by
  obtain ⟨-, proc, cases⟩ := Thread.trap_kernel cause irq running yielded
    ((Place.holds_kernel kernel).mp reach.inv.holds) yk reach.inv.clean
  rcases cases with ⟨place, unknown⟩ | ⟨place, known, rest⟩
  · exact .inl ⟨place, unknown⟩
  · exact .inr ⟨place, known, proc, rest⟩

theorem kernel_trap_transparent_at_forkret :
    forkretThread.Reachable sampleLayout ∧ forkretThread.place.kernel ∧
      Kernel sampleLayout bootHart ∧
      let s' := forkretThread.step sampleLayout (.trap 0x8000000000000001 0 true bootHart)
      (s'.place = .panicked "kerneltrap" ∧ ¬Recognised 0x8000000000000001) ∨
        (s'.place = forkretThread.place ∧ Recognised 0x8000000000000001 ∧ s'.world.proc = forkretThread.world.proc ∧
          Kernel sampleLayout s'.world.hart ∧ s'.world.hart.pc = forkretThread.world.hart.pc ∧
          s'.world.hart.intrOn = forkretThread.world.hart.intrOn ∧
          ∀ i, i ≠ 4 → s'.world.hart.regs i = forkretThread.world.hart.regs i) :=
  ⟨forkretThread_reachable, rfl, bootHart_kernel,
    kernel_trap_transparent forkretThread_reachable rfl 0x8000000000000001 0 true bootHart_kernel⟩

/-- A recognised interrupt of a live process returns it to user mode with its registers unchanged. -/
theorem user_interrupt_transparent {L : Layout} {s : Thread} (reach : s.Reachable L)
    (user : s.place = .user) {cause : BitVec 64} (device : Recognised cause)
    (alive : s.world.proc.killed = false) (irq : Int) (running : Bool) {yielded yielded' : Hart}
    (yk : Kernel L yielded) (yk' : Kernel L yielded') :
    let s₃ := ((s.step L (.trap cause irq running yielded)).step L (.finish yielded')).step L
      .usertrapret
    s.Runs L s₃ ∧ s₃.place = .user ∧ s₃.world.hart.pc = s.world.hart.pc ∧
      s₃.world.hart.regs = s.world.hart.regs ∧ s₃.world.hart.satp = s.world.hart.satp := by
  have ready := reach.user user
  have allowed₁ : s.Allowed L (.trap cause irq running yielded) := ⟨yk, .inl user⟩
  have reach₁ := Thread.Reachable.step _ reach allowed₁
  obtain ⟨-, cases⟩ := Thread.trap_user cause irq running yielded ready reach.inv.clean
  have ecall : cause ≠ 8 := by rintro rfl; simp [Recognised] at device
  rcases cases with ⟨same, -⟩ | ⟨same, -⟩ | ⟨-, d, handled, -, zero, -, proc₁⟩
  · exact absurd same ecall
  · exact absurd same ecall
  have known : d ≠ 0 := fun none => zero.mp none device
  change (s.step L (.trap cause irq running yielded)).place = .handled d at handled
  change (s.step L (.trap cause irq running yielded)).world.proc = _ at proc₁
  dsimp only
  generalize first : s.step L (.trap cause irq running yielded) = s₁ at reach₁ handled proc₁ ⊢
  have alive₁ : s₁.world.proc.killed = false := by simp [proc₁, alive, known]
  have allowed₂ : s₁.Allowed L (.finish yielded') := ⟨yk', d, handled⟩
  have reach₂ := Thread.Reachable.step _ reach₁ allowed₂
  have step₂ : (s₁.step L (.finish yielded')).world.proc = s₁.world.proc ∧
      (s₁.step L (.finish yielded')).place = .ret := by
    simp only [Thread.step, handled, usertrapTail_run, alive₁, Bool.false_eq_true, if_false]
    split_ifs <;> exact ⟨rfl, rfl⟩
  obtain ⟨proc₂, ret⟩ := step₂
  have kernel₂ := (Place.holds_kernel (by simp [ret, Place.kernel])).mp reach₂.inv.holds
  obtain ⟨user₃, -, pc₃, regs₃, -, proc₃⟩ := usertrapret_spec L _ kernel₂ reach₂.inv.clean
  have run₁ : s₁.Runs L ((s₁.step L (.finish yielded')).step L .usertrapret) :=
    .step (.finish yielded') allowed₂ (.step .usertrapret ret (.refl _))
  refine ⟨first ▸ .step _ allowed₁ (first ▸ run₁), rfl, pc₃.trans ?_, regs₃.trans ?_,
    user₃.satp.trans ?_⟩
  · rw [proc₂, proc₁]
  · rw [proc₂, proc₁]
  · rw [proc₃, ready.satp, proc₂, proc₁]

theorem user_interrupt_transparent_timer :
    let s := forkretThread.step sampleLayout .usertrapret
    s.Reachable sampleLayout ∧ s.place = .user ∧ Recognised 0x8000000000000001 ∧
      s.world.proc.killed = false ∧ Kernel sampleLayout bootHart ∧
      let s₃ := ((s.step sampleLayout (.trap 0x8000000000000001 0 true bootHart)).step sampleLayout
        (.finish bootHart)).step sampleLayout .usertrapret
      s.Runs sampleLayout s₃ ∧ s₃.place = .user ∧ s₃.world.hart.pc = s.world.hart.pc ∧
        s₃.world.hart.regs = s.world.hart.regs ∧ s₃.world.hart.satp = s.world.hart.satp :=
  have reach := Thread.Reachable.step .usertrapret forkretThread_reachable rfl
  ⟨reach, rfl, by decide, rfl, bootHart_kernel,
    user_interrupt_transparent reach rfl (by decide) rfl 0 true bootHart_kernel bootHart_kernel⟩

/-- A killed process does not run in user mode again once its trap has reached `usertrap`'s dispatch. -/
theorem killed_never_resumes {L : Layout} {s : Thread} (reach : s.Reachable L)
    (killed : s.world.proc.killed) :
    ((s.place = .syscall ∨ ∃ d, s.place = .handled d) → ∀ s', s.Runs L s' → s'.place ≠ .user) ∧
      (s.place = .user → ∀ cause irq running yielded s',
        s.Allowed L (.trap cause irq running yielded) →
        (s.step L (.trap cause irq running yielded)).Runs L s' → s'.place ≠ .user) := by
  refine ⟨fun trapped s' run => (run.doomed reach (.inl ⟨killed, trapped⟩)).not_user,
    fun user cause irq running yielded s' allowed run =>
      (run.doomed (.step _ reach allowed) ?_).not_user⟩
  obtain ⟨-, cases⟩ := Thread.trap_user cause irq running yielded (reach.user user) reach.inv.clean
  rcases cases with ⟨-, -, place⟩ | ⟨-, alive, -⟩ | ⟨-, d, place, -, -, -, proc⟩
  · exact .inr (.inl place)
  · simp [killed] at alive
  · exact .inl ⟨by simp only [Thread.step, proc, killed, Bool.true_or], .inr ⟨d, place⟩⟩

theorem killed_never_resumes_in_user :
    let s := (forkretThread.step sampleLayout .usertrapret).step sampleLayout .kill
    s.Reachable sampleLayout ∧ s.world.proc.killed ∧
      ((s.place = .syscall ∨ ∃ d, s.place = .handled d) →
        ∀ s', s.Runs sampleLayout s' → s'.place ≠ .user) ∧
      (s.place = .user → ∀ cause irq running yielded s',
        s.Allowed sampleLayout (.trap cause irq running yielded) →
        (s.step sampleLayout (.trap cause irq running yielded)).Runs sampleLayout s' →
        s'.place ≠ .user) :=
  have reach := Thread.Reachable.step .kill
    (Thread.Reachable.step .usertrapret forkretThread_reachable rfl) rfl
  ⟨reach, rfl, killed_never_resumes reach rfl⟩

end Xv6.Trap
