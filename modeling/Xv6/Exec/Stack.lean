import Xv6.Exec

/-!
# The argument stack

`exec` pushes each `argv` string below the top of the new stack page, 16-byte aligned, then the
`argc + 1` pointers to them, checking each time that `sp` stays above the guard page.
`argLayout` is the layout the spec describes, in unbounded arithmetic. When `exec` succeeds it
has built exactly that layout, with 64-bit arithmetic that never wrapped, so the layout is well
formed; when the layout would reach below the guard page, `exec` fails.

The argv loop stops at `MAXARG` strings only when there is one more to push: an argv of exactly
`MAXARG` strings gets through, and `ustack[argc] = 0` then stores one word past `ustack`.
-/

namespace Xv6.Exec

/-! ### The layout the spec describes -/

/-- `x` rounded down to a multiple of 16, as `sp -= sp % 16` does. -/
def alignDown (x : Int) : Int := x - x % 16

/-- The strings pushed below `sp` as the spec says, each with its NUL at the next 16-byte boundary down. -/
def pushStrings : Int → List (List UInt8) → List Int × Int
  | sp, [] => ([], sp)
  | sp, s :: argv =>
    let a := alignDown (sp - (s.length + 1))
    (a :: (pushStrings a argv).1, (pushStrings a argv).2)

/-- Where the argument strings and the final `sp` lie. -/
structure ArgStack where
  strings : List Int
  sp : Int

/-- The spec's stack below `top`: the strings, then the `argc + 1` pointers at the next 16-byte
boundary below them. -/
def argLayout (top : Int) (argv : List (List UInt8)) : ArgStack :=
  ⟨(pushStrings top argv).1, alignDown ((pushStrings top argv).2 - 8 * (argv.length + 1))⟩

/-- What the spec asks of the stack below `top`. -/
def ArgStack.Fits (top : Int) (argv : List (List UInt8)) (st : ArgStack) : Prop :=
  st.strings.length = argv.length ∧ st.sp % 16 = 0 ∧ top - 4096 ≤ st.sp ∧
  (∀ sa ∈ argv.zip st.strings, sa.2 % 16 = 0 ∧ st.sp + 8 * (argv.length + 1) ≤ sa.2 ∧
    sa.2 + sa.1.length + 1 ≤ top) ∧
  (argv.zip st.strings).Pairwise fun (u v : List UInt8 × Int) => v.2 + v.1.length + 1 ≤ u.2

theorem alignDown_spec (x : Int) : alignDown x % 16 = 0 ∧ alignDown x ≤ x ∧ x < alignDown x + 16 := by
  unfold alignDown; omega

@[simp] theorem length_pushStrings (sp : Int) (argv : List (List UInt8)) :
    (pushStrings sp argv).1.length = argv.length := by
  induction argv generalizing sp with
  | nil => rfl
  | cons s argv ih => simp [pushStrings, ih]

theorem pushStrings_between (sp : Int) (argv : List (List UInt8)) :
    (pushStrings sp argv).2 ≤ sp ∧ ∀ sa ∈ argv.zip (pushStrings sp argv).1,
      sa.2 % 16 = 0 ∧ (pushStrings sp argv).2 ≤ sa.2 ∧ sa.2 + sa.1.length + 1 ≤ sp := by
  induction argv generalizing sp with
  | nil => simp [pushStrings]
  | cons s argv ih =>
    obtain ⟨aligned, below, -⟩ := alignDown_spec (sp - (s.length + 1))
    obtain ⟨last, rest⟩ := ih (alignDown (sp - (s.length + 1)))
    simp only [pushStrings, List.zip_cons_cons, List.mem_cons]
    refine ⟨by omega, fun sa mem => ?_⟩
    rcases mem with rfl | mem
    · exact ⟨aligned, last, by dsimp only; omega⟩
    · obtain ⟨a, l, u⟩ := rest sa mem
      exact ⟨a, l, by omega⟩

theorem pushStrings_pairwise (sp : Int) (argv : List (List UInt8)) :
    (argv.zip (pushStrings sp argv).1).Pairwise fun (u v : List UInt8 × Int) => v.2 + v.1.length + 1 ≤ u.2 := by
  induction argv generalizing sp with
  | nil => exact List.Pairwise.nil
  | cons s argv ih =>
    simp only [pushStrings, List.zip_cons_cons, List.pairwise_cons]
    exact ⟨fun v mem => ((pushStrings_between _ argv).2 v mem).2.2, ih (alignDown (sp - (s.length + 1)))⟩

theorem pushStrings_count (sp : Int) (argv : List (List UInt8)) :
    (pushStrings sp argv).2 + 16 * argv.length ≤ sp + 15 ∧
      (sp % 16 = 0 → (pushStrings sp argv).2 + 16 * argv.length ≤ sp) := by
  induction argv generalizing sp with
  | nil => simp only [pushStrings, List.length_nil]; exact ⟨by omega, fun _ => by omega⟩
  | cons s argv ih =>
    obtain ⟨aligned, below, -⟩ := alignDown_spec (sp - (s.length + 1))
    have rest := (ih (alignDown (sp - (s.length + 1)))).2 aligned
    simp only [pushStrings, List.length_cons]
    constructor <;> omega

theorem argLayout_fits {top : Int} {argv : List (List UInt8)}
    (guard : top - 4096 ≤ (argLayout top argv).sp) : (argLayout top argv).Fits top argv := by
  obtain ⟨aligned, below, -⟩ := alignDown_spec ((pushStrings top argv).2 - 8 * (argv.length + 1))
  obtain ⟨-, between⟩ := pushStrings_between top argv
  refine ⟨length_pushStrings top argv, aligned, guard, fun sa mem => ?_, pushStrings_pairwise top argv⟩
  obtain ⟨a, l, u⟩ := between sa mem
  exact ⟨a, by simp only [argLayout] at below ⊢; omega, u⟩

/-! ### What `exec`'s 64-bit arithmetic computes -/

theorem push_toNat {sp : BitVec 64} {n : Nat} (room : n ≤ sp.toNat) :
    (((sp - BitVec.ofNat 64 n) - (sp - BitVec.ofNat 64 n) % 16).toNat : Int) =
      alignDown (sp.toNat - n) := by
  have lt := sp.isLt
  have sub : (sp - BitVec.ofNat 64 n).toNat = sp.toNat - n := by
    rw [BitVec.toNat_sub, BitVec.toNat_ofNat]; omega
  have sixteen : (16 : BitVec 64).toNat = 16 := rfl
  rw [BitVec.toNat_sub, BitVec.toNat_umod, sub, sixteen, alignDown]
  omega

section
variable {cs : Consts} {env : Env}

theorem pushArgs_next {stackbase sp sp' : BitVec 64} {argv : List (List UInt8)}
    {ustack ustack' : List (BitVec 64)} {l l' : Locals} (guard : 4096 ≤ stackbase.toNat)
    (room : stackbase.toNat ≤ sp.toNat) (short : ∀ s ∈ argv, s.length < 4096)
    (pushed : pushArgs cs env stackbase argv sp ustack l = .next (l', sp', ustack')) :
    ∃ vas : List (BitVec 64), ustack' = ustack ++ vas ∧
      vas.map (fun va => (va.toNat : Int)) = (pushStrings sp.toNat argv).1 ∧
      (sp'.toNat : Int) = (pushStrings sp.toNat argv).2 ∧ stackbase.toNat ≤ sp'.toNat ∧
      l'.pagetable = l.pagetable ∧ l'.sz = l.sz ∧
      l'.calls = l.calls ++ (argv.zip vas).map fun sv =>
        .copyout l.pagetable sv.2 (sv.1.length + 1) (.arg sv.1) := by
  induction argv generalizing sp ustack l with
  | nil =>
    cases pushed
    exact ⟨[], by simp, rfl, rfl, room, rfl, rfl, by simp⟩
  | cons s argv ih =>
    simp only [pushArgs] at pushed
    rcases ite_eq_iff.mp pushed with ⟨-, bad⟩ | ⟨-, pushed⟩
    · cases bad
    rcases ite_eq_iff.mp pushed with ⟨-, bad⟩ | ⟨above, pushed⟩
    · cases bad
    rcases ite_eq_iff.mp pushed with ⟨-, bad⟩ | ⟨-, pushed⟩
    · cases bad
    have step := @push_toNat sp (s.length + 1) (by have := short s (by simp); omega)
    rw [BitVec.lt_def, Nat.not_lt] at above
    obtain ⟨vas, stack, map, last, low, pt, sz, calls⟩ :=
      ih above (fun t mem => short t (List.mem_cons_of_mem _ mem)) pushed
    push_cast at step
    rw [step] at map last
    refine ⟨(sp - BitVec.ofNat 64 (s.length + 1) - (sp - BitVec.ofNat 64 (s.length + 1)) % 16) :: vas,
      by rw [stack]; simp, by rw [List.map_cons, map, step]; rfl, last, low, pt, sz, ?_⟩
    rw [calls]
    simp

/-! ### A successful `exec` -/

theorem loadseg_copies {pagetable : Nat} {va : BitVec 64} {offset sz : BitVec 32} (fuel : Nat)
    (i : BitVec 32) (l : Locals) :
    (loadseg env pagetable va offset sz fuel i l).All (fun r => copies r.1.calls = copies l.calls)
      fun _ => True := by
  induction fuel generalizing i l with
  | zero => trivial
  | succ fuel ih =>
    simp only [loadseg]
    refine .ite (fun _ => .ite (fun _ => trivial) fun _ => ?_) fun _ => rfl
    exact .ite (fun _ => by simp [Flow.All, copies]) fun _ =>
      (ih _ _).imp (fun _ kept => by rw [kept]; simp [copies]) fun _ _ => trivial

theorem loadSegments_copies (fuel left : Nat) (off : BitVec 32) (l : Locals) :
    (loadSegments cs env fuel left off l).All (fun l' => copies l'.calls = copies l.calls)
      fun _ => True := by
  induction left generalizing off l with
  | zero => exact rfl
  | succ left ih =>
    have next (l₁ : Locals) (kept : copies l₁.calls = copies l.calls) (off : BitVec 32) :=
      (ih off l₁).imp (fun _ same => same.trans kept) fun _ _ => trivial
    simp only [loadSegments]
    refine .ite (fun _ => trivial) fun _ => .ite (fun _ => next _ (by simp [copies]) _) fun _ =>
      .ite (fun _ => trivial) fun _ => .ite (fun _ => trivial) fun _ => .ite (fun _ => trivial) fun _ =>
      .ite (fun _ => trivial) fun _ => ?_
    split
    · rename_i l' r seg
      have kept := (loadseg_copies fuel 0 _).of_next seg
      exact .ite (fun _ => trivial) fun _ => next l' (by rw [kept]; simp [Locals.uvmalloc, copies]) _
    all_goals trivial

theorem uvmallocResult_stack {sz sz1 : BitVec 64} (grew : sz1 ≠ 0)
    (result : sz1 = uvmallocResult sz (sz + 2 * PGSIZE)) : 8192 ≤ sz1.toNat := by
  subst result
  unfold uvmallocResult PGSIZE at *
  by_cases wrap : sz + 2 * 4096 < sz
  · rw [if_pos wrap] at grew ⊢; bv_omega
  · rw [if_neg wrap] at grew ⊢; bv_omega

theorem copies_copyouts (pt : Nat) (svs : List (List UInt8 × BitVec 64)) :
    copies (svs.map fun sv => .copyout pt sv.2 (sv.1.length + 1) (.arg sv.1)) =
      svs.map fun sv => (pt, sv.2, sv.1.length + 1, .arg sv.1) := by
  induction svs with
  | nil => rfl
  | cons sv svs ih => simp [copies, ih]

/-- A successful `exec` returns `argc` with the strings and `sp` where the spec's layout puts them. -/
theorem exec_argv_stack (cs : Consts) (env : Env) (fuel : Nat) (p : Proc) (path : List UInt8)
    (argv : List (List UInt8)) (_few : argv.length ≤ cs.MAXARG - 1)
    (short : ∀ s ∈ argv, s.length < 4096) {r : Int} {p' : Proc} {calls : List Call}
    (ret : exec cs env fuel p path argv = .ret r p' calls) (ok : r ≠ -1) :
    r = argv.length ∧ p'.trapframe.a1 = p'.trapframe.sp ∧
    (argLayout p'.sz.toNat argv).Fits p'.sz.toNat argv ∧
    ∃ vas : List (BitVec 64), vas.map (fun va => (va.toNat : Int)) = (argLayout p'.sz.toNat argv).strings ∧
      (p'.trapframe.sp.toNat : Int) = (argLayout p'.sz.toNat argv).sp ∧
      copies calls = (argv.zip vas).map (fun sv => (p'.pagetable, sv.2, sv.1.length + 1, From.arg sv.1)) ++
        [(p'.pagetable, p'.trapframe.sp, (argv.length + 1) * 8, From.ustack (vas ++ [0]))] := by
  obtain ⟨ip, l₀, l, l', sp₀, ustack, segs, calls₀, -, grew, result, pushed, sp, spEq, above, rfl, pt, sz,
    stackSp, a1, rfl⟩ := exec_ok_stages ret ok
  have big := uvmallocResult_stack grew result
  have none : copies l.calls = [] := by
    rw [calls₀, copies_append, (loadSegments_copies fuel _ _ _).of_next segs]
    simp [copies]
  have base : (l.sz - PGSIZE).toNat = l.sz.toNat - 4096 := by unfold PGSIZE; bv_omega
  obtain ⟨_, rfl, map, last, low, pt', sz', calls'⟩ :=
    pushArgs_next (by omega) (by omega) short pushed
  have length : ustack.length = argv.length := by simpa using congrArg List.length map
  -- the strings took at most a page, so the pointers fit below them with no wrap
  have count := (pushStrings_count l.sz.toNat argv).1
  have final := @push_toNat sp₀ ((ustack.length + 1) * 8) (by omega)
  rw [← spEq] at final
  rw [BitVec.lt_def, Nat.not_lt, base] at above
  rw [sz, sz', pt, pt', stackSp, a1]
  have layout : (sp.toNat : Int) = (argLayout l.sz.toNat argv).sp := by
    simp only [argLayout, alignDown] at final ⊢
    rw [← last, length] at *
    push_cast at final ⊢
    omega
  refine ⟨by rw [length], rfl, argLayout_fits (by omega), ustack, map, layout, ?_⟩
  rw [calls', List.append_assoc, copies_append, copies_append, none, copies_copyouts]
  simp [copies, length]

end

/-! ### Runs on an ELF file without segments -/

/-- An ELF file with no program headers, loaded into table 1. -/
def noSegments : Env where
  namei := some 1
  readi _ := sizeofElfhdr
  elf _ := ⟨ELF_MAGIC, 0, 64, 0⟩
  ph _ := ⟨ELF_PROG_LOAD, 0, 0, 0, 0, 0⟩
  procPagetable := 1
  uvmalloc _ _ _ := true
  walkaddr _ := 0
  copyout _ := true
  safestrcpy s _ := s

/-- `exec` with the two arguments `"hi"` and `"yo"`, pushed one below the other. -/
theorem exec_argv_stack_two_args :
    ∃ p' calls, exec sampleConsts noSegments 1 caller [47, 97] [[104, 105], [121, 111]] = .ret 2 p' calls ∧
      ((2 : Int) = [[104, 105], [121, 111]].length ∧ p'.trapframe.a1 = p'.trapframe.sp ∧
      (argLayout p'.sz.toNat [[104, 105], [121, 111]]).Fits p'.sz.toNat [[104, 105], [121, 111]] ∧
      ∃ vas : List (BitVec 64),
        vas.map (fun va => (va.toNat : Int)) = (argLayout p'.sz.toNat [[104, 105], [121, 111]]).strings ∧
        (p'.trapframe.sp.toNat : Int) = (argLayout p'.sz.toNat [[104, 105], [121, 111]]).sp ∧
        copies calls = ([[104, 105], [121, 111]].zip vas).map
            (fun sv => (p'.pagetable, sv.2, sv.1.length + 1, From.arg sv.1)) ++
          [(p'.pagetable, p'.trapframe.sp, ([[104, 105], [121, 111]].length + 1) * 8, From.ustack (vas ++ [0]))]) :=
  ⟨_, _, rfl, exec_argv_stack sampleConsts noSegments 1 caller [47, 97] [[104, 105], [121, 111]] (by decide)
    (by decide) rfl (by decide)⟩

/-- With `MAXARG = 32`, 32 one-letter arguments pass the argv loop's test `argc >= MAXARG` every time. -/
theorem exec_ustack_overrun :
    ∃ p' calls words, exec sampleConsts noSegments 1 caller [47, 97] (List.replicate 32 [97]) =
        .ret sampleConsts.MAXARG p' calls ∧
      Call.copyout 1 p'.trapframe.sp ((sampleConsts.MAXARG + 1) * 8) (.ustack words) ∈ calls ∧
      words.length = sampleConsts.MAXARG + 1 ∧ words.getLast? = some 0 :=
  ⟨_, _, (List.range 32).map (fun i => BitVec.ofNat 64 (8176 - 16 * i)) ++ [0], rfl,
    @List.get?_mem _ _ 41 _ rfl, by simp [sampleConsts], by simp⟩

end Xv6.Exec
