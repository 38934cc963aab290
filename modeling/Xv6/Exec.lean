import Mathlib.Data.List.Basic
import Mathlib.Algebra.Group.Int

/-!
# The ELF loader

`exec.c`'s `exec` and `loadseg`, with every helper outside the file (`namei`, `readi`,
`proc_pagetable`, `uvmalloc`, `walkaddr`, `copyout`, ...) answered by an `Env` that may
answer each call differently. The model records each such call, so that what `exec`
leaves behind can be read off the list of calls. `exec_all_or_nothing` shows that a
failing `exec` leaves the caller as it was and releases all it took.
-/

namespace Xv6.Exec

/-- The fields of `struct elfhdr` that `exec` reads. -/
structure Elfhdr where
  magic : BitVec 32
  entry : BitVec 64
  phoff : BitVec 64
  phnum : BitVec 16
  deriving DecidableEq

/-- The fields of `struct proghdr` that `exec` reads. -/
structure Proghdr where
  type : BitVec 32
  flags : BitVec 32
  off : BitVec 64
  vaddr : BitVec 64
  filesz : BitVec 64
  memsz : BitVec 64
  deriving DecidableEq

def ELF_MAGIC : BitVec 32 := 0x464C457F

def ELF_PROG_LOAD : BitVec 32 := 1

/-- Modelled from the spec: `riscv.h` is not among the sources; pages are 4 KiB. -/
def PGSIZE : BitVec 64 := 4096

/-- Modelled from the spec: the `riscv.h` macro page-aligning a size up, in 64 bits. -/
def PGROUNDUP (sz : BitVec 64) : BitVec 64 := (sz + PGSIZE - 1) / PGSIZE * PGSIZE

def sizeofElfhdr : BitVec 32 := 64

def sizeofProghdr : BitVec 32 := 56

/-- The constants `exec` takes from `param.h` and `riscv.h`, neither among the sources. -/
structure Consts where
  MAXARG : Nat
  PTE_X : BitVec 32
  PTE_W : BitVec 32

def flags2perm (cs : Consts) (flags : BitVec 32) : BitVec 32 :=
  let perm := if flags &&& 0x1 ≠ 0 then cs.PTE_X else 0
  if flags &&& 0x2 ≠ 0 then perm ||| cs.PTE_W else perm

/-- The trap-frame slots `exec` writes. -/
structure Trapframe where
  epc : BitVec 64
  sp : BitVec 64
  a1 : BitVec 64
  deriving DecidableEq

/-- The fields of `struct proc` that `exec` reads or writes. -/
structure Proc where
  pagetable : Nat
  sz : BitVec 64
  trapframe : Trapframe
  name : List UInt8
  deriving DecidableEq

/-- Where a `readi` puts its bytes: the `elf` or `ph` local, or a physical page. -/
inductive Into
  | elf
  | ph
  | page (pa : BitVec 64)
  deriving DecidableEq

/-- What a `copyout` copies from: an argument string, whose NUL follows it, or the first words of `ustack`. -/
inductive From
  | arg (s : List UInt8)
  | ustack (words : List (BitVec 64))
  deriving DecidableEq

/-- A call `exec` makes outside `exec.c`, with its arguments. -/
inductive Call
  | beginOp
  | endOp
  | namei (path : List UInt8)
  | ilock
  | iunlockput
  | readi (off n : BitVec 32) (into : Into)
  | procPagetable (pagetable : Nat)
  | uvmalloc (pagetable : Nat) (oldsz newsz : BitVec 64) (perm : BitVec 32) (sz : BitVec 64)
  | walkaddr (pagetable : Nat) (va : BitVec 64)
  | uvmclear (pagetable : Nat) (va : BitVec 64)
  | copyout (pagetable : Nat) (va : BitVec 64) (len : Nat) (src : From)
  | procFreepagetable (pagetable : Nat) (sz : BitVec 64)
  deriving DecidableEq

/-- What the helpers outside `exec.c` answer. -/
structure Env where
  namei : Option Nat
  readi : Nat → BitVec 32
  elf : Nat → Elfhdr
  ph : Nat → Proghdr
  procPagetable : Nat
  uvmalloc : Nat → BitVec 64 → BitVec 64 → Bool
  walkaddr : Nat → BitVec 64
  copyout : Nat → Bool
  safestrcpy : List UInt8 → Nat → List UInt8

/-- Modelled from the spec: `vm.c` is not among the sources. -/
def uvmallocResult (oldsz newsz : BitVec 64) : BitVec 64 := if newsz < oldsz then oldsz else newsz

/-- The calls made so far, and the locals that the `bad:` label reads. -/
structure Locals where
  calls : List Call
  pagetable : Nat
  sz : BitVec 64
  ip : Option Nat

/-- Record a call. -/
def Locals.call (l : Locals) (c : Call) : Locals := { l with calls := l.calls ++ [c] }

@[simp] theorem Locals.call_calls (l : Locals) (c : Call) : (l.call c).calls = l.calls ++ [c] := rfl
@[simp] theorem Locals.call_pagetable (l : Locals) (c : Call) : (l.call c).pagetable = l.pagetable := rfl
@[simp] theorem Locals.call_sz (l : Locals) (c : Call) : (l.call c).sz = l.sz := rfl
@[simp] theorem Locals.call_ip (l : Locals) (c : Call) : (l.call c).ip = l.ip := rfl

/-- The number of the next call. -/
def Locals.k (l : Locals) : Nat := l.calls.length

/-- `uvmalloc(l.pagetable, oldsz, newsz, perm)`: its answer and the call recorded. -/
def Locals.uvmalloc (env : Env) (l : Locals) (oldsz newsz : BitVec 64) (perm : BitVec 32) :
    BitVec 64 × Locals :=
  let sz1 := if env.uvmalloc l.k oldsz newsz then uvmallocResult oldsz newsz else 0
  (sz1, l.call (.uvmalloc l.pagetable oldsz newsz perm sz1))

/-- The `bad:` label. -/
def bad (l : Locals) : Locals :=
  let l := if l.pagetable ≠ 0 then l.call (.procFreepagetable l.pagetable l.sz) else l
  match l.ip with
  | some _ => (l.call .iunlockput).call .endOp
  | none => l

/-- How a part of `exec` ends: on to what follows, at `goto bad`, in a panic, or in a loop that has
not ended when the fuel runs out. -/
inductive Flow (α : Type)
  | next (a : α)
  | bad (l : Locals)
  | panic (msg : String) (l : Locals)
  | diverge

/-- How `exec` ends. -/
inductive Outcome
  | ret (r : Int) (p : Proc) (calls : List Call)
  | panic (msg : String) (calls : List Call)
  | diverge

/-- `loadseg`'s loop from `i`: `walkaddr` the page, then `readi` a page or the tail of the segment into it. -/
def loadseg (env : Env) (pagetable : Nat) (va : BitVec 64) (offset sz : BitVec 32) :
    Nat → BitVec 32 → Locals → Flow (Locals × Int)
  | 0, _, _ => .diverge
  | fuel + 1, i, l =>
    if i < sz then
      let pa := env.walkaddr l.k
      let l := l.call (.walkaddr pagetable (va + i.zeroExtend 64))
      if pa = 0 then .panic "loadseg: address should exist" l
      else
        let n := if sz - i < PGSIZE.truncate 32 then sz - i else PGSIZE.truncate 32
        let got := env.readi l.k
        let l := l.call (.readi (offset + i) n (.page pa))
        if got ≠ n then .next (l, -1)
        else loadseg env pagetable va offset sz fuel (i + PGSIZE.truncate 32) l
    else .next (l, 0)

/-- `exec`'s program-header loop with `left` headers to go, the next at file offset `off` (the `int`
local, here its 32 bits). -/
def loadSegments (cs : Consts) (env : Env) (fuel : Nat) : Nat → BitVec 32 → Locals → Flow Locals
  | 0, _, l => .next l
  | left + 1, off, l =>
    let got := env.readi l.k
    let ph := env.ph l.k
    let l := l.call (.readi off sizeofProghdr .ph)
    if got ≠ sizeofProghdr then .bad l
    else if ph.type ≠ ELF_PROG_LOAD then loadSegments cs env fuel left (off + sizeofProghdr) l
    else if ph.memsz < ph.filesz then .bad l
    else if ph.vaddr + ph.memsz < ph.vaddr then .bad l
    else if ph.vaddr % PGSIZE ≠ 0 then .bad l
    else
      let (sz1, l) := l.uvmalloc env l.sz (ph.vaddr + ph.memsz) (flags2perm cs ph.flags)
      if sz1 = 0 then .bad l
      else
        let l := { l with sz := sz1 }
        match loadseg env l.pagetable ph.vaddr (ph.off.truncate 32) (ph.filesz.truncate 32) fuel 0 l with
        | .next (l, r) =>
          if r < 0 then .bad l else loadSegments cs env fuel left (off + sizeofProghdr) l
        | .bad l => .bad l
        | .panic msg l => .panic msg l
        | .diverge => .diverge

/-- `exec`'s argv loop: push each string below `sp`, 16-byte aligned, and record its address in
`ustack`, whose length is `argc`. -/
def pushArgs (cs : Consts) (env : Env) (stackbase : BitVec 64) :
    List (List UInt8) → BitVec 64 → List (BitVec 64) → Locals →
      Flow (Locals × BitVec 64 × List (BitVec 64))
  | [], sp, ustack, l => .next (l, sp, ustack)
  | s :: argv, sp, ustack, l =>
    if ustack.length ≥ cs.MAXARG then .bad l
    else
      let sp := sp - BitVec.ofNat 64 (s.length + 1)
      let sp := sp - sp % 16
      if sp < stackbase then .bad l
      else
        let ok := env.copyout l.k
        let l := l.call (.copyout l.pagetable sp (s.length + 1) (.arg s))
        if !ok then .bad l else pushArgs cs env stackbase argv sp (ustack ++ [sp]) l

/-- The loop `for (last = s = path; *s; s++) if (*s == '/') last = s + 1;`. -/
def lastName : List UInt8 → List UInt8 → List UInt8
  | last, [] => last
  | last, c :: s => lastName (if c = 47 then s else last) s

/-- `exec(path, argv)` for the process `p`, with `fuel` bounding each `loadseg` loop. -/
def exec (cs : Consts) (env : Env) (fuel : Nat) (p : Proc) (path : List UInt8)
    (argv : List (List UInt8)) : Outcome :=
  let fail (l : Locals) : Outcome := .ret (-1) p (bad l).calls
  let l : Locals := ⟨[.beginOp], 0, 0, none⟩
  let ip := env.namei
  let l := l.call (.namei path)
  match ip with
  | none => .ret (-1) p (l.call .endOp).calls
  | some ip =>
    let l := { l with ip := some ip }.call .ilock
    let got := env.readi l.k
    let elf := env.elf l.k
    let l := l.call (.readi 0 sizeofElfhdr .elf)
    if got ≠ sizeofElfhdr then fail l
    else if elf.magic ≠ ELF_MAGIC then fail l
    else
      let pagetable := env.procPagetable
      let l := l.call (.procPagetable pagetable)
      if pagetable = 0 then fail l
      else
        let l := { l with pagetable := pagetable }
        match loadSegments cs env fuel elf.phnum.toNat (elf.phoff.truncate 32) l with
        | .bad l => fail l
        | .panic msg l => .panic msg l.calls
        | .diverge => .diverge
        | .next l =>
          let l := { (l.call .iunlockput).call .endOp with ip := none }
          let oldsz := p.sz
          let l := { l with sz := PGROUNDUP l.sz }
          let (sz1, l) := l.uvmalloc env l.sz (l.sz + 2 * PGSIZE) cs.PTE_W
          if sz1 = 0 then fail l
          else
            let l := { l with sz := sz1 }
            let l := l.call (.uvmclear l.pagetable (l.sz - 2 * PGSIZE))
            let sp := l.sz
            let stackbase := sp - PGSIZE
            match pushArgs cs env stackbase argv sp [] l with
            | .bad l => fail l
            | .panic msg l => .panic msg l.calls
            | .diverge => .diverge
            | .next (l, sp, ustack) =>
              let argc := ustack.length
              let ustack := ustack ++ [0]
              let sp := sp - BitVec.ofNat 64 ((argc + 1) * 8)
              let sp := sp - sp % 16
              if sp < stackbase then fail l
              else
                let ok := env.copyout l.k
                let l := l.call (.copyout l.pagetable sp (ustack.length * 8) (.ustack ustack))
                if !ok then fail l
                else
                  let p := { p with trapframe := { p.trapframe with a1 := sp } }
                  let p := { p with name := env.safestrcpy (lastName path path) 16 }
                  let oldpagetable := p.pagetable
                  let p := { p with pagetable := l.pagetable }
                  let p := { p with sz := l.sz }
                  let p := { p with trapframe := { p.trapframe with epc := elf.entry } }
                  let p := { p with trapframe := { p.trapframe with sp := sp } }
                  .ret argc p (l.call (.procFreepagetable oldpagetable oldsz)).calls

/-! ### What the calls show -/

/-- The sizes at which `pagetable` was handed to `proc_freepagetable`, in call order. -/
def freed : List Call → Nat → List (BitVec 64)
  | [], _ => []
  | .procFreepagetable pt sz :: calls, pagetable =>
    (if pt = pagetable then [sz] else []) ++ freed calls pagetable
  | _ :: calls, pagetable => freed calls pagetable

/-- The sizes `uvmalloc` returned when it grew `pagetable`. -/
def grownTo : List Call → Nat → List (BitVec 64)
  | [], _ => []
  | .uvmalloc pt _ _ _ sz :: calls, pagetable =>
    (if pt = pagetable then [sz] else []) ++ grownTo calls pagetable
  | _ :: calls, pagetable => grownTo calls pagetable

/-- The `copyout`s among `calls`, in order: the table, where, how many bytes, and from what. -/
def copies : List Call → List (Nat × BitVec 64 × Nat × From)
  | [] => []
  | .copyout pt va len src :: calls => (pt, va, len, src) :: copies calls
  | _ :: calls => copies calls

@[simp] theorem freed_append (calls calls' : List Call) (pagetable : Nat) :
    freed (calls ++ calls') pagetable = freed calls pagetable ++ freed calls' pagetable := by
  induction calls with
  | nil => rfl
  | cons c calls ih => cases c <;> simp [freed, ih]

@[simp] theorem grownTo_append (calls calls' : List Call) (pagetable : Nat) :
    grownTo (calls ++ calls') pagetable = grownTo calls pagetable ++ grownTo calls' pagetable := by
  induction calls with
  | nil => rfl
  | cons c calls ih => cases c <;> simp [grownTo, ih]

@[simp] theorem copies_append (calls calls' : List Call) :
    copies (calls ++ calls') = copies calls ++ copies calls' := by
  induction calls with
  | nil => rfl
  | cons c calls ih => cases c <;> simp [copies, ih]

/-- The calls that take and release nothing: reads, lookups and copies. -/
def Call.quiet : Call → Bool
  | .readi .. | .walkaddr .. | .uvmclear .. | .copyout .. => true
  | _ => false

theorem Call.quiet_untouched {c : Call} (quiet : c.quiet) :
    c ≠ .beginOp ∧ c ≠ .endOp ∧ c ≠ .ilock ∧ c ≠ .iunlockput ∧ (∀ pt, c ≠ .procPagetable pt) ∧
      ∀ pt, freed [c] pt = [] ∧ grownTo [c] pt = [] := by
  cases c <;> simp_all [Call.quiet, freed, grownTo]

/-! ### The invariant of `exec`'s locals -/

/-- What holds of `exec`'s locals from `ilock` on. -/
structure Ready (l : Locals) : Prop where
  begins : l.calls.count .beginOp = 1
  ilocks : l.calls.count .ilock = 1
  ends : l.calls.count .endOp = if l.ip = none then 1 else 0
  unlocks : l.calls.count .iunlockput = if l.ip = none then 1 else 0
  unfreed : ∀ pt, freed l.calls pt = []
  tables : ∀ pt, .procPagetable pt ∈ l.calls → pt = l.pagetable
  grown : ∀ pt, ∀ sz ∈ grownTo l.calls pt, pt = l.pagetable ∧ sz ≤ l.sz
  fits : l.sz.toNat ≤ 2 ^ 64 - 4096

variable {l l' : Locals} {c : Call}

theorem Ready.call (ready : Ready l) (quiet : c.quiet) : Ready (l.call c) := by
  obtain ⟨begin, ends, ilock, unlock, table, untouched⟩ := Call.quiet_untouched quiet
  refine ⟨?_, ?_, ?_, ?_, fun pt => ?_, fun pt mem => ?_, fun pt sz mem => ?_, ready.fits⟩
  · simp [ready.begins, List.count_singleton, begin.symm]
  · simp [ready.ilocks, List.count_singleton, ilock.symm]
  · simp [ready.ends, List.count_singleton, ends.symm]
  · simp [ready.unlocks, List.count_singleton, unlock.symm]
  · simp [ready.unfreed pt, (untouched pt).1]
  · simp only [Locals.call_calls, List.mem_append, List.mem_singleton] at mem
    exact mem.elim (ready.tables pt) fun eq => absurd eq.symm (table pt)
  · simp only [Locals.call_calls, grownTo_append, (untouched pt).2, List.append_nil] at mem
    exact ready.grown pt sz mem

theorem uvmallocResult_le (oldsz newsz : BitVec 64) :
    oldsz ≤ uvmallocResult oldsz newsz ∧ newsz ≤ uvmallocResult oldsz newsz := by
  unfold uvmallocResult; split <;> bv_omega

theorem Ready.resize {sz : BitVec 64} (ready : Ready l) (le : l.sz ≤ sz)
    (fits : sz.toNat ≤ 2 ^ 64 - 4096) : Ready { l with sz := sz } :=
  { ready with
    grown := fun pt sz' mem => (ready.grown pt sz' mem).imp_right fun below => by bv_omega
    fits }

theorem Ready.roundup (ready : Ready l) : Ready { l with sz := PGROUNDUP l.sz } := by
  have one : (1 : BitVec 64).toNat = 1 := rfl
  have page : PGSIZE.toNat = 4096 := rfl
  have rounded : (PGROUNDUP l.sz).toNat = (l.sz.toNat + 4095) / 4096 * 4096 := by
    simp only [PGROUNDUP, BitVec.toNat_mul, BitVec.toNat_udiv, BitVec.toNat_sub,
      BitVec.toNat_add, one, page]
    have := ready.fits
    omega
  exact ready.resize (by rw [BitVec.le_def, rounded]; omega) (by rw [rounded]; have := ready.fits; omega)

theorem Ready.uvmalloc_call {oldsz newsz sz1 : BitVec 64} {perm : BitVec 32} (ready : Ready l)
    (le : sz1 ≤ l.sz) : Ready (l.call (.uvmalloc l.pagetable oldsz newsz perm sz1)) := by
  refine ⟨?_, ?_, ?_, ?_, fun pt => ?_, fun pt mem => ?_, fun pt sz mem => ?_, ready.fits⟩
  · simp [ready.begins, List.count_singleton]
  · simp [ready.ilocks, List.count_singleton]
  · simp [ready.ends, List.count_singleton]
  · simp [ready.unlocks, List.count_singleton]
  · simp [ready.unfreed pt, freed]
  · simpa using ready.tables pt (by simpa using mem)
  · simp only [Locals.call_calls, grownTo_append, List.mem_append] at mem
    rcases mem with mem | mem
    · exact ready.grown pt sz mem
    · simp only [grownTo, List.mem_append, List.mem_ite_nil_right, List.mem_singleton,
        List.not_mem_nil, or_false] at mem
      obtain ⟨rfl, rfl⟩ := mem
      exact ⟨rfl, le⟩

section
variable {env : Env} {oldsz newsz sz1 : BitVec 64} {perm : BitVec 32}

@[simp] theorem Locals.uvmalloc_ip : (l.uvmalloc env oldsz newsz perm).2.ip = l.ip := rfl

theorem Ready.uvmalloc_fail (ready : Ready l) (failed : (l.uvmalloc env oldsz newsz perm).1 = 0) :
    Ready (l.uvmalloc env oldsz newsz perm).2 := by
  have le : (l.uvmalloc env oldsz newsz perm).1 ≤ l.sz := by rw [failed]; bv_omega
  exact ready.uvmalloc_call le

theorem Ready.uvmalloc_grow
    (fits : ∀ k oldsz newsz, env.uvmalloc k oldsz newsz = true → newsz.toNat ≤ 2 ^ 64 - 4096)
    (ready : Ready l) (grew : (l.uvmalloc env l.sz newsz perm).1 ≠ 0) :
    Ready { (l.uvmalloc env l.sz newsz perm).2 with sz := (l.uvmalloc env l.sz newsz perm).1 } := by
  cases ok : env.uvmalloc l.k l.sz newsz
  · simp [Locals.uvmalloc, ok] at grew
  · have fit : (uvmallocResult l.sz newsz).toNat ≤ 2 ^ 64 - 4096 := by
      unfold uvmallocResult; split
      exacts [ready.fits, fits _ _ _ ok]
    simp only [Locals.uvmalloc, ok, if_true]
    exact (ready.resize (uvmallocResult_le l.sz newsz).1 fit).uvmalloc_call (BitVec.le_refl _)

end

/-! ### The loops -/

/-- What a part of `exec` hands on. -/
def Flow.All {α : Type} (P : α → Prop) (Q : Locals → Prop) : Flow α → Prop
  | .next a => P a
  | .bad l => Q l
  | .panic _ _ | .diverge => True

theorem Flow.All.imp {α : Type} {P P' : α → Prop} {Q Q' : Locals → Prop} {f : Flow α}
    (all : f.All P Q) (next : ∀ a, P a → P' a) (bad : ∀ l, Q l → Q' l) : f.All P' Q' := by
  cases f with
  | next a => exact next a all
  | bad l => exact bad l all
  | panic | diverge => trivial

theorem Flow.All.ite {α : Type} {P : α → Prop} {Q : Locals → Prop} {c : Prop} [Decidable c]
    {f g : Flow α} (pos : c → f.All P Q) (neg : ¬c → g.All P Q) : (if c then f else g).All P Q := by
  split
  exacts [pos ‹_›, neg ‹_›]

theorem Flow.All.of_next {α : Type} {P : α → Prop} {Q : Locals → Prop} {f : Flow α} {a : α}
    (all : f.All P Q) (next : f = .next a) : P a := by
  subst next; exact all

theorem Flow.All.of_bad {α : Type} {P : α → Prop} {Q : Locals → Prop} {f : Flow α} {l : Locals}
    (all : f.All P Q) (bad : f = .bad l) : Q l := by
  subst bad; exact all

theorem loadseg_ready {env : Env} {pagetable : Nat} {va : BitVec 64} {offset sz : BitVec 32}
    (fuel : Nat) (i : BitVec 32) (ready : Ready l) :
    (loadseg env pagetable va offset sz fuel i l).All (fun r => Ready r.1 ∧ r.1.ip = l.ip)
      fun _ => False := by
  induction fuel generalizing i l with
  | zero => trivial
  | succ fuel ih =>
    have ready' {c₁ c₂ : Call} (q₁ : c₁.quiet) (q₂ : c₂.quiet) : Ready ((l.call c₁).call c₂) :=
      (ready.call q₁).call q₂
    simp only [loadseg]
    refine .ite (fun _ => .ite (fun _ => trivial) fun _ => ?_) fun _ => ⟨ready, rfl⟩
    exact .ite (fun _ => ⟨ready' rfl rfl, rfl⟩) fun _ => ih _ (ready' rfl rfl)

theorem loadSegments_ready {cs : Consts} {env : Env}
    (fits : ∀ k oldsz newsz, env.uvmalloc k oldsz newsz = true → newsz.toNat ≤ 2 ^ 64 - 4096)
    (fuel left : Nat) (off : BitVec 32) (ready : Ready l) :
    (loadSegments cs env fuel left off l).All (fun l' => Ready l' ∧ l'.ip = l.ip)
      fun l' => Ready l' ∧ l'.ip = l.ip := by
  induction left generalizing off l with
  | zero => exact ⟨ready, rfl⟩
  | succ left ih =>
    have read : Ready (l.call (.readi off sizeofProghdr .ph)) := ready.call rfl
    simp only [loadSegments]
    refine .ite (fun _ => ⟨read, rfl⟩) fun _ => .ite (fun _ => ih _ read) fun _ =>
      .ite (fun _ => ⟨read, rfl⟩) fun _ => .ite (fun _ => ⟨read, rfl⟩) fun _ =>
      .ite (fun _ => ⟨read, rfl⟩) fun _ => .ite (fun failed => ⟨read.uvmalloc_fail failed, rfl⟩)
      fun grew => ?_
    have grown := read.uvmalloc_grow fits grew
    split
    · rename_i l' r seg
      obtain ⟨ready', ip⟩ := (loadseg_ready fuel 0 grown).of_next seg
      exact .ite (fun _ => ⟨ready', ip⟩) fun _ =>
        (ih _ ready').imp (fun _ => And.imp_right (·.trans ip)) fun _ => And.imp_right (·.trans ip)
    · exact ((loadseg_ready fuel 0 grown).of_bad ‹_›).elim
    · trivial
    · trivial

theorem pushArgs_ready {cs : Consts} {env : Env} {stackbase : BitVec 64}
    (argv : List (List UInt8)) (sp : BitVec 64) (ustack : List (BitVec 64)) (ready : Ready l) :
    (pushArgs cs env stackbase argv sp ustack l).All (fun r => Ready r.1 ∧ r.1.ip = l.ip)
      fun l' => Ready l' ∧ l'.ip = l.ip := by
  induction argv generalizing sp ustack l with
  | nil => exact ⟨ready, rfl⟩
  | cons s argv ih =>
    simp only [pushArgs]
    exact .ite (fun _ => ⟨ready, rfl⟩) fun _ => .ite (fun _ => ⟨ready, rfl⟩) fun _ =>
      .ite (fun _ => ⟨ready.call rfl, rfl⟩) fun _ => ih _ _ (ready.call rfl)

/-! ### Leaving `exec` -/

theorem Ready.unlock (ready : Ready l) (locked : l.ip ≠ none) :
    Ready { (l.call .iunlockput).call .endOp with ip := none } := by
  refine ⟨?_, ?_, ?_, ?_, fun pt => ?_, fun pt mem => ?_, fun pt sz mem => ?_, ready.fits⟩
  · simp [ready.begins, List.count_singleton]
  · simp [ready.ilocks, List.count_singleton]
  · simp [ready.ends, locked, List.count_singleton]
  · simp [ready.unlocks, locked, List.count_singleton]
  · simp [ready.unfreed pt, freed]
  · simpa using ready.tables pt (by simpa using mem)
  · simpa [grownTo] using ready.grown pt sz (by simpa [grownTo] using mem)

theorem Ready.bad_released (ready : Ready l) :
    (bad l).calls.count .beginOp = 1 ∧ (bad l).calls.count .endOp = 1 ∧
      (bad l).calls.count .iunlockput = 1 ∧ (bad l).calls.count .ilock = 1 ∧
      ∀ pt, .procPagetable pt ∈ (bad l).calls → pt ≠ 0 →
        freed (bad l).calls pt = [l.sz] ∧ ∀ sz ∈ grownTo (bad l).calls pt, sz ≤ l.sz := by
  obtain ⟨begins, ilocks, ends, unlocks, unfreed, tables, grown, -⟩ := ready
  unfold bad
  by_cases table : l.pagetable = 0 <;> cases ip : l.ip <;>
    simp [table, ip, begins, ilocks, ends, unlocks, unfreed, freed, grownTo, List.count_singleton]
  case pos.none | pos.some => exact fun pt mem => (tables pt mem).trans table
  case neg.none | neg.some =>
    exact fun pt mem _ => ⟨(tables pt mem).symm, fun sz grew => (grown pt sz grew).2⟩

section
variable {cs : Consts} {env : Env} {fuel : Nat} {p p' : Proc} {path : List UInt8}
  {argv : List (List UInt8)} {r : Int} {calls : List Call}

theorem exec_returns
    (fits : ∀ k oldsz newsz, env.uvmalloc k oldsz newsz = true → newsz.toNat ≤ 2 ^ 64 - 4096)
    (ret : exec cs env fuel p path argv = .ret r p' calls) :
    (r = -1 ∧ p' = p ∧ calls = [.beginOp, .namei path, .endOp]) ∨
      (∃ l, Ready l ∧ r = -1 ∧ p' = p ∧ calls = (bad l).calls) ∨
      (∃ l, Ready l ∧ l.ip = none ∧ 0 ≤ r ∧
        calls = l.calls ++ [.procFreepagetable p.pagetable p.sz]) := by
  have fail {l : Locals} (ret : Outcome.ret (-1) p (bad l).calls = .ret r p' calls)
      (ready : Ready l) : ∃ l, Ready l ∧ r = -1 ∧ p' = p ∧ calls = (bad l).calls := by
    injection ret with r_eq p_eq calls_eq
    exact ⟨l, ready, r_eq.symm, p_eq.symm, calls_eq.symm⟩
  simp only [exec] at ret
  split at ret
  · injection ret with r_eq p_eq calls_eq
    exact .inl ⟨r_eq.symm, p_eq.symm, calls_eq.symm⟩
  · rename_i ip _
    have opened : Ready ⟨[.beginOp, .namei path, .ilock, .readi 0 sizeofElfhdr .elf], 0, 0, some ip⟩ := by
      constructor <;> simp [freed, grownTo]
    have tabled (pt : Nat) (answer : env.procPagetable = pt) : Ready ⟨[.beginOp, .namei path,
        .ilock, .readi 0 sizeofElfhdr .elf, .procPagetable env.procPagetable], pt, 0, some ip⟩ := by
      constructor <;> simp [freed, grownTo, answer]
    rcases ite_eq_iff.mp ret with ⟨-, ret⟩ | ⟨-, ret⟩
    · exact .inr (.inl (fail ret opened))
    rcases ite_eq_iff.mp ret with ⟨-, ret⟩ | ⟨-, ret⟩
    · exact .inr (.inl (fail ret opened))
    rcases ite_eq_iff.mp ret with ⟨unbuilt, ret⟩ | ⟨-, ret⟩
    · exact .inr (.inl (fail ret (tabled 0 unbuilt)))
    split at ret
    next _ bad_eq => exact .inr (.inl (fail ret ((loadSegments_ready fits fuel _ _ (tabled _ rfl)).of_bad bad_eq).1))
    · cases ret
    · cases ret
    rename_i l segs
    obtain ⟨ready, locked⟩ := (loadSegments_ready fits fuel _ _ (tabled _ rfl)).of_next segs
    have rounded := (ready.unlock (by simp [locked])).roundup
    rcases ite_eq_iff.mp ret with ⟨failed, ret⟩ | ⟨failed, ret⟩
    · exact .inr (.inl (fail ret (rounded.uvmalloc_fail failed)))
    have stack := rounded.uvmalloc_grow fits failed
    split at ret
    next _ bad_eq => exact .inr (.inl (fail ret ((pushArgs_ready _ _ _ (stack.call (by rfl))).of_bad bad_eq).1))
    · cases ret
    · cases ret
    rename_i l' sp ustack pushed
    obtain ⟨pushed, unlocked⟩ := (pushArgs_ready _ _ _ (stack.call (by rfl))).of_next pushed
    rcases ite_eq_iff.mp ret with ⟨-, ret⟩ | ⟨-, ret⟩
    · exact .inr (.inl (fail ret pushed))
    rcases ite_eq_iff.mp ret with ⟨-, ret⟩ | ⟨-, ret⟩
    · exact .inr (.inl (fail ret (pushed.call (by rfl))))
    injection ret with r_eq p_eq calls_eq
    exact .inr (.inr ⟨_, pushed.call (by rfl), unlocked, by omega, calls_eq.symm⟩)

theorem exec_ok_stages (ret : exec cs env fuel p path argv = .ret r p' calls) (ok : r ≠ -1) :
    ∃ (ip : Nat) (l l₁ l' : Locals) (sp₀ : BitVec 64) (ustack : List (BitVec 64)),
      loadSegments cs env fuel (env.elf 3).phnum.toNat ((env.elf 3).phoff.truncate 32)
        ⟨[.beginOp, .namei path, .ilock, .readi 0 sizeofElfhdr .elf,
          .procPagetable env.procPagetable], env.procPagetable, 0, some ip⟩ = .next l ∧
      l₁.calls = l.calls ++ [.iunlockput, .endOp, .uvmalloc l.pagetable (PGROUNDUP l.sz)
        (PGROUNDUP l.sz + 2 * PGSIZE) cs.PTE_W l₁.sz, .uvmclear l.pagetable (l₁.sz - 2 * PGSIZE)] ∧
      l₁.pagetable = l.pagetable ∧ l₁.sz ≠ 0 ∧
      l₁.sz = uvmallocResult (PGROUNDUP l.sz) (PGROUNDUP l.sz + 2 * PGSIZE) ∧
      pushArgs cs env (l₁.sz - PGSIZE) argv l₁.sz [] l₁ = .next (l', sp₀, ustack) ∧
      ∃ sp, sp = sp₀ - BitVec.ofNat 64 ((ustack.length + 1) * 8) -
          (sp₀ - BitVec.ofNat 64 ((ustack.length + 1) * 8)) % 16 ∧ ¬sp < l₁.sz - PGSIZE ∧
        r = ustack.length ∧ p'.pagetable = l'.pagetable ∧ p'.sz = l'.sz ∧
        p'.trapframe.sp = sp ∧ p'.trapframe.a1 = sp ∧
        calls = l'.calls ++ [.copyout l'.pagetable sp ((ustack ++ [0]).length * 8)
          (.ustack (ustack ++ [0])), .procFreepagetable p.pagetable p.sz] := by
  have failed {l : Locals} (fail : Outcome.ret (-1) p (bad l).calls = .ret r p' calls) : False := by
    injection fail with r_eq
    exact ok r_eq.symm
  simp only [exec] at ret
  split at ret
  · injection ret with r_eq
    exact absurd r_eq.symm ok
  rename_i ip _
  rcases ite_eq_iff.mp ret with ⟨-, ret⟩ | ⟨-, ret⟩
  · exact (failed ret).elim
  rcases ite_eq_iff.mp ret with ⟨-, ret⟩ | ⟨-, ret⟩
  · exact (failed ret).elim
  rcases ite_eq_iff.mp ret with ⟨-, ret⟩ | ⟨-, ret⟩
  · exact (failed ret).elim
  split at ret
  next => exact (failed ret).elim
  · cases ret
  · cases ret
  rename_i l segs
  rcases ite_eq_iff.mp ret with ⟨-, ret⟩ | ⟨grew, ret⟩
  · exact (failed ret).elim
  split at ret
  next => exact (failed ret).elim
  · cases ret
  · cases ret
  rename_i l' sp₀ ustack pushed
  rcases ite_eq_iff.mp ret with ⟨-, ret⟩ | ⟨above, ret⟩
  · exact (failed ret).elim
  rcases ite_eq_iff.mp ret with ⟨-, ret⟩ | ⟨-, ret⟩
  · exact (failed ret).elim
  injection ret with r_eq p_eq calls_eq
  subst p_eq
  refine ⟨ip, l, _, l', sp₀, ustack, segs, ?_, ?_, ?_, ?_, pushed, _, rfl, above, r_eq.symm, rfl, rfl,
    rfl, rfl, by rw [← calls_eq]; simp⟩
  · simp [Locals.uvmalloc]
  · rfl
  · exact grew
  · simp only [Locals.uvmalloc] at grew ⊢
    split
    · rfl
    · rename_i refused
      rw [if_neg refused] at grew
      exact absurd rfl grew

end

/-- A failing `exec` leaves the caller as it was, and frees the table it built exactly once, at a
size covering every `uvmalloc` into it. -/
theorem exec_all_or_nothing (cs : Consts) (env : Env) (fuel : Nat) (p : Proc)
    (path : List UInt8) (argv : List (List UInt8))
    (fits : ∀ k oldsz newsz, env.uvmalloc k oldsz newsz = true → newsz.toNat ≤ 2 ^ 64 - 4096)
    {r : Int} {p' : Proc} {calls : List Call} (ret : exec cs env fuel p path argv = .ret r p' calls) :
    calls.count .beginOp = 1 ∧ calls.count .endOp = 1 ∧
      calls.count .iunlockput = calls.count .ilock ∧ calls.count .ilock ≤ 1 ∧
      (r = -1 → p' = p ∧ ∀ pt, .procPagetable pt ∈ calls → pt ≠ 0 →
        ∃ sz, freed calls pt = [sz] ∧ ∀ sz' ∈ grownTo calls pt, sz' ≤ sz) := by
  rcases exec_returns fits ret with ⟨rfl, rfl, rfl⟩ | ⟨l, ready, rfl, rfl, rfl⟩ |
    ⟨l, ready, unlocked, nonneg, rfl⟩
  · simp
  · obtain ⟨begins, ends, unlocks, ilocks, released⟩ := ready.bad_released
    exact ⟨begins, ends, unlocks.trans ilocks.symm, ilocks.le,
      fun _ => ⟨rfl, fun pt mem built => ⟨l.sz, released pt mem built⟩⟩⟩
  · simp [ready.begins, ready.ends, ready.unlocks, ready.ilocks, unlocked, List.count_singleton]
    omega

/-! ### A segment in the last page -/

/-- An ELF file with one 4095-byte segment at `vaddr`, loaded into table 1. -/
def oneSegment (vaddr top : BitVec 64) : Env where
  namei := some 1
  readi k := if k = 3 then sizeofElfhdr else sizeofProghdr
  elf _ := ⟨ELF_MAGIC, 0, 64, 1⟩
  ph _ := ⟨ELF_PROG_LOAD, 0, 0, vaddr, 0, 4095⟩
  procPagetable := 1
  uvmalloc k _ newsz := k == 6 && decide (newsz ≤ top)
  walkaddr _ := 0
  copyout _ := true
  safestrcpy s _ := s

def sampleConsts : Consts := ⟨32, 8, 4⟩

def caller : Proc := ⟨7, 8192, ⟨0, 0, 0⟩, [105, 110, 105, 116]⟩

/-- The same file with its segment at 0 and `uvmalloc` bounded. -/
theorem exec_all_or_nothing_stack_fails :
    let calls : List Call := [.beginOp, .namei [47, 97], .ilock, .readi 0 sizeofElfhdr .elf,
      .procPagetable 1, .readi 64 sizeofProghdr .ph, .uvmalloc 1 0 4095 0 4095, .iunlockput,
      .endOp, .uvmalloc 1 4096 12288 4 0, .procFreepagetable 1 4096]
    (∀ k oldsz newsz, (oneSegment 0 (-4096)).uvmalloc k oldsz newsz = true →
      newsz.toNat ≤ 2 ^ 64 - 4096) ∧
    exec sampleConsts (oneSegment 0 (-4096)) 1 caller [47, 97] [] = .ret (-1) caller calls ∧
    (calls.count .beginOp = 1 ∧ calls.count .endOp = 1 ∧
      calls.count .iunlockput = calls.count .ilock ∧ calls.count .ilock ≤ 1 ∧
      ((-1 : Int) = -1 → caller = caller ∧ ∀ pt, .procPagetable pt ∈ calls → pt ≠ 0 →
        ∃ sz, freed calls pt = [sz] ∧ ∀ sz' ∈ grownTo calls pt, sz' ≤ sz)) := by
  intro calls
  have fits (k : Nat) (oldsz newsz : BitVec 64)
      (ok : (oneSegment 0 (-4096)).uvmalloc k oldsz newsz = true) : newsz.toNat ≤ 2 ^ 64 - 4096 := by
    simp only [oneSegment, Bool.and_eq_true, decide_eq_true_eq] at ok
    bv_omega
  have ret : exec sampleConsts (oneSegment 0 (-4096)) 1 caller [47, 97] [] =
      .ret (-1) caller calls := rfl
  exact ⟨fits, ret, exec_all_or_nothing sampleConsts _ 1 caller _ _ fits ret⟩

/-- A segment ending 4095 bytes below the top makes the stack's `PGROUNDUP` wrap and `bad:` free at size 0. -/
theorem exec_frees_short_after_wrap :
    ∃ calls, exec sampleConsts (oneSegment (-4096) (-1)) 1 caller [47, 97] [] =
        .ret (-1) caller calls ∧ .procPagetable 1 ∈ calls ∧
      ¬∃ sz, freed calls 1 = [sz] ∧ ∀ sz' ∈ grownTo calls 1, sz' ≤ sz := by
  refine ⟨_, rfl, by decide, ?_⟩
  rintro ⟨sz, once, covers⟩
  have zero : [(0 : BitVec 64)] = [sz] := once ▸ rfl
  have top := covers (-1) (by decide)
  rw [← List.singleton_inj.mp zero] at top
  exact absurd top (by decide)

end Xv6.Exec
