import Xv6.Trap.Cycle

/-!
# Booting the harts

`main.c`: every hart enters `main` from `start()` (not among the sources) in supervisor mode. The
hart whose `cpuid()` is 0 runs the kernel's initialisation and then sets `started`; every other hart
spins until it sees `started`, and only then turns on paging (`kvminithart`), installs the kernel
trap vector (`trapinithart`) and asks the PLIC for interrupts. Each then calls `scheduler()`, which
does not return. A hart's registers are those of `Xv6.Trap`, and `kvminithart` and `trapinithart`
write them as that model runs code; the other calls are only recorded. Interleavings are read as
sequentially consistent: the `__sync_synchronize()` on either side of `started` is what makes hart
0's initialisation visible to a hart that has seen `started`.

`boot_ordered` shows that in every interleaving no other hart makes a call before hart 0 has made
all of its initialisation, and hart 0 makes none after; `boot_enters_kernel` that a hart enters
`scheduler()` having made exactly its own calls, on the kernel's page table and trap vector, with
interrupts off and `tp` naming it, as `Xv6.Trap` asks of the kernel, every register state it went
through routing traps right; and `boot_completes` that from every state the harts can still all
reach `scheduler()`.
-/

namespace Xv6.Boot

open Trap (Hart World Layout)

/-- What `main` calls before `scheduler()`. -/
inductive Call
  | consoleinit
  | printfinit
  | printf
  | kinit
  | kvminit
  | kvminithart
  | procinit
  | trapinit
  | trapinithart
  | plicinit
  | plicinithart
  | binit
  | iinit
  | fileinit
  | virtio_disk_init
  | userinit
  deriving DecidableEq

/-- Hart 0's initialisation, in `main`'s order, the banner's three `printf`s included. -/
def bootCalls : List Call :=
  [.consoleinit, .printfinit, .printf, .printf, .printf, .kinit, .kvminit, .kvminithart, .procinit,
    .trapinit, .trapinithart, .plicinit, .plicinithart, .binit, .iinit, .fileinit,
    .virtio_disk_init, .userinit]

/-- Another hart's, once it has seen `started`. -/
def hartCalls : List Call := [.printf, .kvminithart, .trapinithart, .plicinithart]

/-- What a call does to the hart's registers. -/
def Call.code (L : Layout) : Call → Trap.Code Unit
  | .kvminithart => Trap.write fun h => { h with satp := L.kernelSatp }
  | .trapinithart => Trap.trapinithart L
  | _ => pure ()

/-- Where a hart is in `main`. -/
inductive Pc
  /-- at `if (cpuid() == 0)` -/
  | entry
  /-- hart 0, at its `k`-th initialisation call, or at `started = 1` after the last -/
  | boot (k : Nat)
  /-- another hart, in `while (started == 0)` -/
  | spin
  /-- another hart, at its `k`-th call, or at `scheduler()` after the last -/
  | hart (k : Nat)
  /-- in `scheduler()`, which does not return -/
  | scheduler
  deriving DecidableEq

/-- The harts' places, `started`, the calls made so far by each hart in order, and each hart's registers. -/
structure Sys (NCPU : Nat) where
  pc : Fin NCPU → Pc
  started : Bool
  log : List (Fin NCPU × Call)
  world : Fin NCPU → World

variable {NCPU : Nat} (L : Layout)

/-- Hart `i` makes call `c` and goes on to `next`. -/
def Sys.call (s : Sys NCPU) (i : Fin NCPU) (c : Call) (next : Pc) : Sys NCPU :=
  { s with
    pc := Function.update s.pc i next
    log := s.log ++ [(i, c)]
    world := Function.update s.world i ((c.code L).run (s.world i)).2 }

/-- One step of hart `i`. `cpuid()` reads `tp`. -/
def Sys.step (s : Sys NCPU) (i : Fin NCPU) : Sys NCPU :=
  match s.pc i with
  | .entry =>
    { s with pc := Function.update s.pc i (if (s.world i).hart.regs 4 = 0 then .boot 0 else .spin) }
  | .boot k =>
    match bootCalls[k]? with
    | some c => s.call L i c (.boot (k + 1))
    | none => { s with started := true, pc := Function.update s.pc i .scheduler }
  | .spin => if s.started then { s with pc := Function.update s.pc i (.hart 0) } else s
  | .hart k =>
    match hartCalls[k]? with
    | some c => s.call L i c (.hart (k + 1))
    | none => { s with pc := Function.update s.pc i .scheduler }
  | .scheduler => s

/-- What `start()` leaves hart `i` in, by `main`'s comment and the trap model. -/
structure Entered (i : Fin NCPU) (w : World) : Prop where
  priv : w.hart.priv = .supervisor
  tp : w.hart.regs 4 = w.hart.mhartid
  hartid : w.hart.mhartid.toNat = i
  off : w.hart.sstatus.getLsbD 1 = false
  fresh : w.seen = []

inductive Reachable : Sys NCPU → Prop
  | init {world : Fin NCPU → World} : (∀ i, Entered i (world i)) →
    Reachable ⟨fun _ => .entry, false, [], world⟩
  | step {s : Sys NCPU} (i : Fin NCPU) : Reachable s → Reachable (s.step L i)

/-- Runs of steps by any harts. -/
inductive Runs : Sys NCPU → Sys NCPU → Prop
  | refl (s : Sys NCPU) : Runs s s
  | step {s s' : Sys NCPU} (i : Fin NCPU) : Runs (s.step L i) s' → Runs s s'

/-! ### The invariant -/

/-- The calls hart `i` has made, in order. -/
def Sys.callsOf (s : Sys NCPU) (i : Fin NCPU) : List Call := (s.log.filter (·.1 = i)).map Prod.snd

/-- Where hart `i` may be, given `started`. -/
def Placed (started : Bool) (i : Nat) : Pc → Prop
  | .entry => True
  | .boot k => i = 0 ∧ k ≤ bootCalls.length ∧ started = false
  | .spin => i ≠ 0
  | .hart k => i ≠ 0 ∧ k ≤ hartCalls.length ∧ started = true
  | .scheduler => started = true

/-- The calls hart `i` has made when at `pc`. -/
def Pc.done (i : Nat) : Pc → List Call
  | .entry | .spin => []
  | .boot k => bootCalls.take k
  | .hart k => hartCalls.take k
  | .scheduler => if i = 0 then bootCalls else hartCalls

/-- A hart's registers while it boots. -/
structure Booting (i : Fin NCPU) (w : World) : Prop where
  priv : w.hart.priv = .supervisor
  tp : w.hart.regs 4 = w.hart.mhartid
  hartid : w.hart.mhartid.toNat = i
  off : w.hart.sstatus.getLsbD 1 = false
  clean : Trap.Clean L w

/-- Each hart's registers, place and calls agree. -/
structure Inv (s : Sys NCPU) : Prop where
  booting : ∀ i, Booting L i (s.world i)
  placed : ∀ i : Fin NCPU, Placed s.started i (s.pc i)
  calls : ∀ i : Fin NCPU, s.callsOf i = (s.pc i).done i
  satp : ∀ i, .kvminithart ∈ s.callsOf i → (s.world i).hart.satp = L.kernelSatp
  stvec : ∀ i, .trapinithart ∈ s.callsOf i → (s.world i).hart.stvec = L.kernelvec
  finished : s.started = true → ∀ i : Fin NCPU, (i : Nat) = 0 → s.pc i = .scheduler
  ordered : ∀ (pre : List (Fin NCPU × Call)) (j : Fin NCPU) (c : Call) post,
    s.log = pre ++ (j, c) :: post → (j : Nat) ≠ 0 →
    ∀ i : Fin NCPU, (i : Nat) = 0 → (pre.filter (·.1 = i)).map Prod.snd = bootCalls

/-! ### Steps -/

theorem Call.code_run (c : Call) (w : World) :
    ((c.code L).run w).2.hart = { w.hart with
      satp := if c = .kvminithart then L.kernelSatp else w.hart.satp
      stvec := if c = .trapinithart then L.kernelvec else w.hart.stvec } ∧
    (((c.code L).run w).2.seen = w.seen ∨
      ((c.code L).run w).2.seen = w.seen ++ [((c.code L).run w).2.hart]) := by
  cases c <;> first | exact ⟨rfl, .inl rfl⟩ | exact ⟨rfl, .inr rfl⟩

theorem Booting.code {i : Fin NCPU} {w : World} (booting : Booting L i w) (c : Call) :
    Booting L i ((c.code L).run w).2 := by
  obtain ⟨hart, seen⟩ := Call.code_run L c w
  have routed : Trap.Routed L ((c.code L).run w).2.hart :=
    Trap.routed_of_off (by rw [hart]; exact booting.priv) (by rw [hart]; exact booting.off)
  refine ⟨?_, ?_, ?_, ?_, ?_⟩
  all_goals try rw [hart]
  · exact booting.priv
  · exact booting.tp
  · exact booting.hartid
  · exact booting.off
  · rcases seen with same | snoc
    · simpa only [Trap.Clean, same] using booting.clean
    · simpa only [Trap.Clean, snoc] using Trap.routed_snoc booting.clean routed

theorem callsOf_call_self (s : Sys NCPU) (i : Fin NCPU) (c : Call) (next : Pc) :
    (s.call L i c next).callsOf i = s.callsOf i ++ [c] := by
  simp [Sys.callsOf, Sys.call]

theorem callsOf_call_of_ne (s : Sys NCPU) {i j : Fin NCPU} (c : Call) (next : Pc) (ne : j ≠ i) :
    (s.call L i c next).callsOf j = s.callsOf j := by
  simp [Sys.callsOf, Sys.call, Ne.symm ne]

theorem snoc_eq_append_cons {α : Type} {l pre post : List α} {x y : α}
    (same : l ++ [x] = pre ++ y :: post) :
    (pre = l ∧ y = x) ∨ ∃ post', l = pre ++ y :: post' := by
  rcases List.eq_nil_or_concat post with rfl | ⟨post', z, rfl⟩
  · rw [List.append_cons pre y [], List.append_nil] at same
    obtain ⟨rfl, last⟩ := List.append_inj' same rfl
    exact .inl ⟨rfl, (List.singleton_inj.mp last).symm⟩
  · rw [List.concat_eq_append, ← List.cons_append, ← List.append_assoc] at same
    obtain ⟨rfl, -⟩ := List.append_inj' same rfl
    exact .inr ⟨post', rfl⟩

variable {L}

theorem Inv.call {s : Sys NCPU} (inv : Inv L s) {i : Fin NCPU} {c : Call} {next : Pc}
    (placed : Placed s.started i next) (done : (s.pc i).done i ++ [c] = next.done i)
    (early : (i : Nat) = 0 → s.started = false) (late : (i : Nat) ≠ 0 → s.started = true) :
    Inv L (s.call L i c next) where
  booting j := by
    by_cases h : j = i
    · subst h; simpa [Sys.call] using (inv.booting j).code L c
    · simpa [Sys.call, h] using inv.booting j
  placed j := by
    by_cases h : j = i
    · subst h; simpa [Sys.call] using placed
    · simpa [Sys.call, h] using inv.placed j
  calls j := by
    by_cases h : j = i
    · subst h; rw [callsOf_call_self, inv.calls j, done]; simp [Sys.call]
    · rw [callsOf_call_of_ne L s c next h, inv.calls j]; simp [Sys.call, h]
  satp j mem := by
    by_cases h : j = i
    · subst h
      rw [callsOf_call_self] at mem
      simp only [Sys.call, Function.update_same, (Call.code_run L c _).1]
      by_cases kvm : c = .kvminithart
      · simp [kvm]
      · rw [if_neg kvm]
        exact inv.satp j ((List.mem_append.mp mem).resolve_right
          fun last => kvm (List.mem_singleton.mp last).symm)
    · rw [callsOf_call_of_ne L s c next h] at mem
      simpa [Sys.call, h] using inv.satp j mem
  stvec j mem := by
    by_cases h : j = i
    · subst h
      rw [callsOf_call_self] at mem
      simp only [Sys.call, Function.update_same, (Call.code_run L c _).1]
      by_cases trap : c = .trapinithart
      · simp [trap]
      · rw [if_neg trap]
        exact inv.stvec j ((List.mem_append.mp mem).resolve_right
          fun last => trap (List.mem_singleton.mp last).symm)
    · rw [callsOf_call_of_ne L s c next h] at mem
      simpa [Sys.call, h] using inv.stvec j mem
  finished started j zero := by
    by_cases h : j = i
    · subst h; simp [Sys.call, early zero] at started
    · simpa [Sys.call, h] using inv.finished started j zero
  ordered pre j c' post same other i₀ zero := by
    rcases snoc_eq_append_cons same with ⟨rfl, entry⟩ | ⟨post', before⟩
    · obtain ⟨rfl, rfl⟩ := Prod.mk.inj entry
      have := inv.calls i₀
      rw [inv.finished (late other) i₀ zero] at this
      simpa [Sys.callsOf, Pc.done, zero] using this
    · exact inv.ordered pre j c' post' before other i₀ zero

theorem Inv.move {s : Sys NCPU} (inv : Inv L s) {i : Fin NCPU} {next : Pc}
    (placed : Placed s.started i next) (done : next.done i = (s.pc i).done i)
    (finished : s.started = true → (i : Nat) = 0 → next = .scheduler) :
    Inv L { s with pc := Function.update s.pc i next } where
  booting := inv.booting
  placed j := by
    by_cases h : j = i
    · subst h; simpa using placed
    · simpa [h] using inv.placed j
  calls j := by
    by_cases h : j = i
    · subst h; simpa [done] using inv.calls j
    · simpa [h] using inv.calls j
  satp := inv.satp
  stvec := inv.stvec
  finished started j zero := by
    by_cases h : j = i
    · subst h; simpa using finished started zero
    · simpa [h] using inv.finished started j zero
  ordered := inv.ordered

theorem Placed.start {j : Nat} {pc : Pc} (placed : Placed false j pc) (other : j ≠ 0) :
    Placed true j pc := by
  cases pc with
  | entry => trivial
  | boot k => exact absurd placed.1 other
  | spin => exact other
  | hart k => exact absurd placed.2.2 Bool.false_ne_true
  | scheduler => exact absurd placed Bool.false_ne_true

theorem Inv.start {s : Sys NCPU} (inv : Inv L s) {i : Fin NCPU}
    (at_end : s.pc i = .boot bootCalls.length) :
    Inv L { s with started := true, pc := Function.update s.pc i .scheduler } := by
  have placed := inv.placed i
  rw [at_end] at placed
  obtain ⟨zero, -, unset⟩ := placed
  have hart0 : ∀ j : Fin NCPU, (j : Nat) = 0 → j = i := fun j h => Fin.ext (h.trans zero.symm)
  refine { inv with placed := fun j => ?_, calls := fun j => ?_, finished := fun _ j h => ?_ }
  · by_cases h : j = i
    · subst h; simp [Placed]
    · have := inv.placed j
      rw [unset] at this
      simpa [h] using this.start fun h0 => h (hart0 j h0)
  · by_cases h : j = i
    · subst h; simpa [at_end, Pc.done, zero] using inv.calls j
    · simpa [h] using inv.calls j
  · rw [hart0 j h]
    exact Function.update_same _ _ _

theorem Inv.step {s : Sys NCPU} (inv : Inv L s) (i : Fin NCPU) : Inv L (s.step L i) := by
  have placed := inv.placed i
  unfold Sys.step
  split
  next entry =>
    have booting := inv.booting i
    -- `cpuid()` is 0 on hart 0 only
    have cpuid : (s.world i).hart.regs 4 = 0 ↔ (i : Nat) = 0 := by
      rw [booting.tp, BitVec.toNat_eq, booting.hartid]
      rfl
    by_cases zero : (i : Nat) = 0
    · have unset : s.started = false := by
        cases started : s.started
        · rfl
        · simpa [entry] using inv.finished started i zero
      rw [if_pos (cpuid.mpr zero)]
      exact inv.move (show Placed s.started i (.boot 0) from ⟨zero, Nat.zero_le _, unset⟩)
        (by simp [entry, Pc.done]) fun started => absurd (unset ▸ started) Bool.false_ne_true
    · rw [if_neg (mt cpuid.mp zero)]
      exact inv.move (show Placed s.started i .spin from zero) (by simp [entry, Pc.done])
        fun _ zero' => absurd zero' zero
  next k boot =>
    rw [boot] at placed
    obtain ⟨zero, le, unset⟩ := placed
    split
    next c get =>
      refine inv.call ⟨zero, ?_, unset⟩ ?_ (fun _ => unset) (fun other => absurd zero other)
      · exact (List.getElem?_eq_some_iff.mp get).1
      · simp [boot, Pc.done, List.take_succ, get]
    next none =>
      have : k = bootCalls.length := le_antisymm le (List.getElem?_eq_none_iff.mp none)
      exact inv.start (this ▸ boot)
  next spin =>
    rw [spin] at placed
    split
    next started =>
      exact inv.move (show Placed s.started i (.hart 0) from ⟨placed, Nat.zero_le _, started⟩)
        (by simp [spin, Pc.done]) fun _ zero => absurd zero placed
    next => exact inv
  next k hart =>
    rw [hart] at placed
    obtain ⟨other, le, started⟩ := placed
    split
    next c get =>
      refine inv.call ⟨other, ?_, started⟩ ?_ (fun zero => absurd zero other) (fun _ => started)
      · exact (List.getElem?_eq_some_iff.mp get).1
      · simp [hart, Pc.done, List.take_succ, get]
    next none =>
      have : k = hartCalls.length := le_antisymm le (List.getElem?_eq_none_iff.mp none)
      exact inv.move started (by simp [hart, Pc.done, other, this]) fun _ zero => absurd zero other
  next => exact inv

theorem Inv.init {world : Fin NCPU → World} (entered : ∀ i, Entered i (world i)) :
    Inv L (⟨fun _ => .entry, false, [], world⟩ : Sys NCPU) where
  booting i :=
    ⟨(entered i).priv, (entered i).tp, (entered i).hartid, (entered i).off,
      by simp [Trap.Clean, (entered i).fresh]⟩
  placed _ := trivial
  calls _ := rfl
  satp _ mem := by simp [Sys.callsOf] at mem
  stvec _ mem := by simp [Sys.callsOf] at mem
  finished started := absurd started Bool.false_ne_true
  ordered _ _ _ _ same := by simp at same

theorem Reachable.inv {s : Sys NCPU} (reach : Reachable L s) : Inv L s := by
  induction reach with
  | init entered => exact Inv.init entered
  | step i _ ih => exact ih.step i

/-! ### Progress -/

/-- How many steps hart `i` has left before `scheduler()`, once `started` no longer holds it. -/
def rank : Pc → Nat
  | .entry => bootCalls.length + hartCalls.length + 3
  | .boot k => bootCalls.length + 1 - k
  | .spin => hartCalls.length + 2
  | .hart k => hartCalls.length + 1 - k
  | .scheduler => 0

theorem Sys.step_pc_of_ne (s : Sys NCPU) {i j : Fin NCPU} (ne : j ≠ i) :
    (s.step L i).pc j = s.pc j := by
  unfold Sys.step
  split
  · simp [ne]
  · split <;> simp [Sys.call, ne]
  · split <;> simp [ne]
  · split <;> simp [Sys.call, ne]
  · rfl

theorem Sys.step_started (s : Sys NCPU) (i : Fin NCPU) (started : s.started = true) :
    (s.step L i).started = true := by
  unfold Sys.step
  split
  · exact started
  · split <;> simp [Sys.call, started]
  · split <;> simp [started]
  · split <;> simp [Sys.call, started]
  · exact started

theorem Inv.step_rank {s : Sys NCPU} (inv : Inv L s) {i : Fin NCPU} (busy : s.pc i ≠ .scheduler)
    (free : s.pc i = .spin → s.started = true) :
    rank ((s.step L i).pc i) < rank (s.pc i) := by
  have placed := inv.placed i
  unfold Sys.step
  split
  next entry =>
    split <;> simp only [entry, rank, Function.update_same] <;> omega
  next k boot =>
    rw [boot] at placed
    obtain ⟨-, le, -⟩ := placed
    split
    next c get =>
      have := (List.getElem?_eq_some_iff.mp get).1
      simp only [Sys.call, boot, rank, Function.update_same]
      omega
    next none =>
      have := List.getElem?_eq_none_iff.mp none
      simp only [boot, rank, Function.update_same]
      omega
  next spin => simp [free spin, spin, rank]
  next k hart =>
    rw [hart] at placed
    obtain ⟨-, le, -⟩ := placed
    split
    next c get =>
      have := (List.getElem?_eq_some_iff.mp get).1
      simp only [Sys.call, hart, rank, Function.update_same]
      omega
    next none =>
      have := List.getElem?_eq_none_iff.mp none
      simp only [hart, rank, Function.update_same]
      omega
  next sched => exact absurd sched busy

theorem Runs.trans {s s' s'' : Sys NCPU} (first : Runs L s s') (second : Runs L s' s'') :
    Runs L s s'' := by
  induction first with
  | refl => exact second
  | step i _ ih => exact .step i (ih second)

theorem Inv.run_hart (i : Fin NCPU) :
    ∀ n (s : Sys NCPU), Inv L s → rank (s.pc i) ≤ n → ((i : Nat) = 0 ∨ s.started = true) →
      ∃ s', Runs L s s' ∧ Inv L s' ∧ s'.pc i = .scheduler ∧ (∀ j, j ≠ i → s'.pc j = s.pc j) ∧
        (s.started = true → s'.started = true) := by
  intro n
  induction n with
  | zero =>
    intro s inv small _
    have placed := inv.placed i
    have sched : s.pc i = .scheduler := by
      cases pc : s.pc i <;> simp only [pc, rank, Placed] at small placed ⊢ <;> omega
    exact ⟨s, .refl s, inv, sched, fun _ _ => rfl, id⟩
  | succ n ih =>
    intro s inv small may
    by_cases sched : s.pc i = .scheduler
    · exact ⟨s, .refl s, inv, sched, fun _ _ => rfl, id⟩
    have free : s.pc i = .spin → s.started = true := fun spin =>
      may.resolve_left fun zero => by
        have := inv.placed i
        rw [spin] at this
        exact this zero
    obtain ⟨s', run, inv', sched', others, started'⟩ :=
      ih (s.step L i) (inv.step i) (by have := inv.step_rank sched free; omega)
        (may.imp_right (s.step_started i))
    exact ⟨s', .step i run, inv', sched', fun j ne => (others j ne).trans (s.step_pc_of_ne ne),
      fun started => started' (s.step_started i started)⟩

theorem Reachable.steps {s : Sys NCPU} (reach : Reachable L s) (harts : List (Fin NCPU)) :
    Reachable L (harts.foldl (fun s i => s.step L i) s) := by
  induction harts generalizing s with
  | nil => exact reach
  | cons i harts ih => exact ih (.step i reach)

/-! ### Results -/

/-- Two harts as `start()` hands them to `main`. -/
def startWorld (i : Fin 2) : World :=
  ⟨⟨.supervisor, 0x80000000, fun r => if r = 4 then BitVec.ofNat 64 i else 0, 0, 0, 0, 0, 0, 0,
    BitVec.ofNat 64 i⟩, ⟨⟨0, 0, 0, 0, 0, fun _ => 0⟩, false, 0, 0⟩, 0, [], []⟩

def bootSys : Sys 2 := ⟨fun _ => .entry, false, [], startWorld⟩

theorem bootSys_reachable : Reachable Trap.sampleLayout bootSys :=
  .init fun i => ⟨rfl, rfl, by simp [startWorld, BitVec.toNat_ofNat]; omega, by simp [startWorld], rfl⟩

/-- Hart 1 waiting for `started` while hart 0 has run its first three calls. -/
def midBoot : Sys 2 := [1, 1, 0, 0, 0, 0].foldl (fun s i => s.step Trap.sampleLayout i) bootSys

/-- Hart 0 through its initialisation and into `scheduler()`. -/
def hart0Booted : Sys 2 := (List.replicate 20 0).foldl (fun s i => s.step Trap.sampleLayout i) bootSys

/-- Each hart's calls are a prefix of its own sequence, and hart 0's initialisation comes first. -/
theorem boot_ordered {s : Sys NCPU} (reach : Reachable L s) :
    (∀ i : Fin NCPU, s.callsOf i <+: if (i : Nat) = 0 then bootCalls else hartCalls) ∧
    ∀ (pre : List (Fin NCPU × Call)) (j : Fin NCPU) (c : Call) post,
      s.log = pre ++ (j, c) :: post → (j : Nat) ≠ 0 →
      ∀ i : Fin NCPU, (i : Nat) = 0 → (pre.filter (·.1 = i)).map Prod.snd = bootCalls := by
  have inv := reach.inv
  refine ⟨fun i => ?_, inv.ordered⟩
  have placed := inv.placed i
  rw [inv.calls i]
  cases pc : s.pc i with
  | entry | spin => exact List.nil_prefix
  | boot k =>
    rw [pc] at placed
    simpa [Pc.done, placed.1] using List.take_prefix k bootCalls
  | hart k =>
    rw [pc] at placed
    simpa [Pc.done, placed.1] using List.take_prefix k hartCalls
  | scheduler => exact List.prefix_refl _

theorem boot_ordered_mid_boot :
    Reachable Trap.sampleLayout midBoot ∧
    (∀ i : Fin 2, midBoot.callsOf i <+: if (i : Nat) = 0 then bootCalls else hartCalls) ∧
    ∀ (pre : List (Fin 2 × Call)) (j : Fin 2) (c : Call) post,
      midBoot.log = pre ++ (j, c) :: post → (j : Nat) ≠ 0 →
      ∀ i : Fin 2, (i : Nat) = 0 → (pre.filter (·.1 = i)).map Prod.snd = bootCalls :=
  have reach := bootSys_reachable.steps [1, 1, 0, 0, 0, 0]
  ⟨reach, boot_ordered reach⟩

/-- A hart in `scheduler()` has made exactly its own calls and runs as `Kernel` asks. -/
theorem boot_enters_kernel {s : Sys NCPU} (reach : Reachable L s) (i : Fin NCPU)
    (sched : s.pc i = .scheduler) :
    s.callsOf i = (if (i : Nat) = 0 then bootCalls else hartCalls) ∧
      Trap.Kernel L (s.world i).hart ∧ (s.world i).hart.intrOn = false ∧ Trap.Clean L (s.world i) := by
  have inv := reach.inv
  have calls : s.callsOf i = if (i : Nat) = 0 then bootCalls else hartCalls := by
    rw [inv.calls i, sched]
    rfl
  have kvm : Call.kvminithart ∈ s.callsOf i := by rw [calls]; split_ifs <;> decide
  have trap : Call.trapinithart ∈ s.callsOf i := by rw [calls]; split_ifs <;> decide
  have booting := inv.booting i
  exact ⟨calls, ⟨booting.priv, inv.stvec i trap, inv.satp i kvm, booting.tp⟩,
    by simp [booting.off], booting.clean⟩

theorem boot_enters_kernel_hart0 :
    Reachable Trap.sampleLayout hart0Booted ∧ hart0Booted.pc 0 = .scheduler ∧
      hart0Booted.callsOf 0 = bootCalls ∧ Trap.Kernel Trap.sampleLayout (hart0Booted.world 0).hart ∧
      (hart0Booted.world 0).hart.intrOn = false ∧ Trap.Clean Trap.sampleLayout (hart0Booted.world 0) :=
  have reach := bootSys_reachable.steps (List.replicate 20 0)
  ⟨reach, by decide, boot_enters_kernel reach 0 (by decide)⟩

/-- From every state of the boot, whatever the harts have done so far, some interleaving brings
every hart into `scheduler()`: hart 0 is never held, and the others only until it sets `started`. -/
theorem boot_completes {s : Sys NCPU} (reach : Reachable L s) :
    ∃ s', Runs L s s' ∧ ∀ i, s'.pc i = .scheduler := by
  have inv := reach.inv
  -- hart 0 first, which sets `started` as it enters `scheduler()`
  obtain ⟨s₀, run₀, inv₀, started₀⟩ :
      ∃ s₀, Runs L s s₀ ∧ Inv L s₀ ∧ (0 < NCPU → s₀.started = true) := by
    by_cases pos : 0 < NCPU
    · obtain ⟨s₀, run, inv₀, sched, -, -⟩ := Inv.run_hart ⟨0, pos⟩ _ s inv le_rfl (.inl rfl)
      have placed := inv₀.placed ⟨0, pos⟩
      rw [sched] at placed
      exact ⟨s₀, run, inv₀, fun _ => placed⟩
    · exact ⟨s, .refl s, inv, fun p => absurd p pos⟩
  -- then the other harts, one after another
  have all : ∀ l : List (Fin NCPU), ∃ s', Runs L s₀ s' ∧ Inv L s' ∧ (0 < NCPU → s'.started = true) ∧
      ∀ i ∈ l, s'.pc i = .scheduler := by
    intro l
    induction l with
    | nil => exact ⟨s₀, .refl s₀, inv₀, started₀, by simp⟩
    | cons i l ih =>
      obtain ⟨s', run, inv', started', sched⟩ := ih
      have started := started' (Nat.lt_of_le_of_lt (Nat.zero_le _) i.isLt)
      obtain ⟨s'', run', inv'', sched', others, kept⟩ :=
        Inv.run_hart i _ s' inv' le_rfl (.inr started)
      refine ⟨s'', run.trans run', inv'', fun _ => kept started, fun j mem => ?_⟩
      by_cases h : j = i
      · subst h; exact sched'
      · rw [others j h]
        exact sched j ((List.mem_cons.mp mem).resolve_left h)
  obtain ⟨s', run, -, -, sched⟩ := all (List.finRange NCPU)
  exact ⟨s', run₀.trans run, fun i => sched i (List.mem_finRange i)⟩

theorem boot_completes_mid_boot :
    Reachable Trap.sampleLayout midBoot ∧
      ∃ s', Runs Trap.sampleLayout midBoot s' ∧ ∀ i, s'.pc i = .scheduler :=
  have reach := bootSys_reachable.steps [1, 1, 0, 0, 0, 0]
  ⟨reach, boot_completes reach⟩

end Xv6.Boot
