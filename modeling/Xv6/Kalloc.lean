import Mathlib.Data.List.Nodup

/-!
# The frame allocator

`kalloc.c`: `kinit` seeds a free list of 4 KiB frames with `freerange`, `kfree` pushes a
frame and `kalloc` pops one. `kalloc_partition` shows that over every run of `kalloc` and
of `kfree` on frames handed out, the free list and the frames handed out split the seeded
frames between them, each frame exactly once.
-/

namespace Xv6.Kalloc

/-- Modelled from the spec: `riscv.h` is not among the sources; the spec's frames are 4 KiB. -/
def PGSIZE : Nat := 4096

/-- Modelled from the spec: the `riscv.h` macro, rounding up to a page boundary. -/
def PGROUNDUP (a : Nat) : Nat := (a + PGSIZE - 1) / PGSIZE * PGSIZE

/-- The memory `kinit` hands out: `end` from `kernel.ld` and `PHYSTOP` from `memlayout.h`, neither
among the sources. -/
structure Layout where
  kernelEnd : Nat
  PHYSTOP : Nat
  kernelEnd_pos : 0 < kernelEnd

variable (L : Layout)

/-- `kfree(pa)` pushes `pa` on the free list (its `memset` of junk is not modelled). -/
def kfree (freelist : List Nat) (pa : Nat) : Except String (List Nat) :=
  if pa % PGSIZE ≠ 0 ∨ pa < L.kernelEnd ∨ pa ≥ L.PHYSTOP then .error "kfree"
  else .ok (pa :: freelist)

/-- `kalloc()` pops the head of the free list, or returns 0 when it is empty. -/
def kalloc : List Nat → Nat × List Nat
  | [] => (0, [])
  | r :: rest => (r, rest)

/-- The loop of `freerange`: `kfree(p)` for each page while `p + PGSIZE <= pa_end`. -/
def freerangeFrom (pa_end p : Nat) (freelist : List Nat) : Except String (List Nat) :=
  if p + PGSIZE ≤ pa_end then (kfree L freelist p).bind (freerangeFrom pa_end (p + PGSIZE))
  else .ok freelist
termination_by pa_end + PGSIZE - p
decreasing_by simp only [PGSIZE] at *; omega

def freerange (freelist : List Nat) (pa_start pa_end : Nat) : Except String (List Nat) :=
  freerangeFrom L pa_end (PGROUNDUP pa_start) freelist

def kinit : Except String (List Nat) := freerange L [] L.kernelEnd L.PHYSTOP

/-- The frames `kinit` seeds: page boundaries from `PGROUNDUP(end)` whose whole page lies below `PHYSTOP`. -/
def Seeded (p : Nat) : Prop :=
  p % PGSIZE = 0 ∧ PGROUNDUP L.kernelEnd ≤ p ∧ p + PGSIZE ≤ L.PHYSTOP

instance : DecidablePred (Seeded L) := fun _ => inferInstanceAs (Decidable (_ ∧ _))

/-! ### Seeding -/

theorem PGROUNDUP_spec (a : Nat) : PGROUNDUP a % PGSIZE = 0 ∧ a ≤ PGROUNDUP a := by
  simp only [PGROUNDUP, PGSIZE]; omega

theorem kfree_ok {freelist : List Nat} {pa : Nat} (aligned : pa % PGSIZE = 0)
    (above : L.kernelEnd ≤ pa) (below : pa < L.PHYSTOP) :
    kfree L freelist pa = .ok (pa :: freelist) := by
  simp [kfree, aligned, Nat.not_lt.mpr above, below]

theorem freerangeFrom_pushes {pa_end : Nat} (top : pa_end ≤ L.PHYSTOP) (p : Nat)
    (freelist : List Nat) (aligned : p % PGSIZE = 0) (above : L.kernelEnd ≤ p) :
    ∃ pages, freerangeFrom L pa_end p freelist = .ok (pages ++ freelist) ∧ pages.Nodup ∧
      ∀ q, q ∈ pages ↔ q % PGSIZE = 0 ∧ p ≤ q ∧ q + PGSIZE ≤ pa_end := by
  induction p, freelist using freerangeFrom.induct L pa_end with
  | case1 p freelist fits ih =>
    obtain ⟨pages, run, nodup, mem⟩ :=
      ih (p :: freelist) (by simp only [PGSIZE] at *; omega) (by simp only [PGSIZE]; omega)
    refine ⟨pages ++ [p], ?_, ?_, fun q => ?_⟩
    · rw [freerangeFrom, if_pos fits, kfree_ok L aligned above (by simp only [PGSIZE] at *; omega)]
      simpa using run
    · exact List.nodup_append.mpr ⟨nodup, List.nodup_singleton p,
        List.disjoint_singleton.mpr fun inside => by
          have := ((mem p).mp inside).2.1; simp only [PGSIZE] at this; omega⟩
    · simp only [List.mem_append, List.mem_singleton, mem, PGSIZE] at *; omega
  | case2 p freelist done =>
    refine ⟨[], by rw [freerangeFrom, if_neg done]; rfl, List.nodup_nil, fun q => ?_⟩
    simp only [List.not_mem_nil, false_iff, PGSIZE] at *; omega

theorem kinit_seeds : ∃ fl, kinit L = .ok fl ∧ fl.Nodup ∧ ∀ p, p ∈ fl ↔ Seeded L p := by
  obtain ⟨aligned, up⟩ := PGROUNDUP_spec L.kernelEnd
  obtain ⟨pages, run, nodup, mem⟩ :=
    freerangeFrom_pushes L (Nat.le_refl _) _ [] aligned up
  refine ⟨pages, by simpa using run, nodup, fun p => (mem p).trans ?_⟩
  simp only [Seeded]

/-! ### Runs of `kalloc` and `kfree` -/

/-- The allocator, with (ghost) the frames `kalloc` handed out and no `kfree` returned yet. -/
structure Kmem where
  freelist : List Nat
  out : List Nat

inductive Op
  | kalloc
  | kfree (pa : Nat)

def step (k : Kmem) : Op → Except String Kmem
  | .kalloc =>
    let (r, freelist) := kalloc k.freelist
    .ok ⟨freelist, if r = 0 then k.out else r :: k.out⟩
  | .kfree pa => (kfree L k.freelist pa).map fun freelist => ⟨freelist, k.out.erase pa⟩

/-- The callers' side: `kfree` only a frame currently handed out. -/
def Allowed (k : Kmem) : Op → Prop
  | .kalloc => True
  | .kfree pa => pa ∈ k.out

inductive Reachable : Kmem → Prop
  | init {freelist : List Nat} : kinit L = .ok freelist → Reachable ⟨freelist, []⟩
  | step {k k' : Kmem} {op : Op} : Reachable k → Allowed k op → step L k op = .ok k' → Reachable k'

/-- Each seeded frame is on the free list or handed out, exactly once, and nothing else is. -/
structure Partition (k : Kmem) : Prop where
  nodup : (k.freelist ++ k.out).Nodup
  seeded : ∀ p, p ∈ k.freelist ++ k.out ↔ Seeded L p

variable {L}

theorem Partition.of_perm {k k' : Kmem} (inv : Partition L k)
    (perm : (k'.freelist ++ k'.out).Perm (k.freelist ++ k.out)) : Partition L k' :=
  ⟨perm.nodup_iff.mpr inv.nodup, fun p => perm.mem_iff.trans (inv.seeded p)⟩

theorem Seeded.pos {p : Nat} (seeded : Seeded L p) : 0 < p := by
  have := (PGROUNDUP_spec L.kernelEnd).2
  have := L.kernelEnd_pos
  exact Nat.lt_of_lt_of_le (by omega) seeded.2.1

theorem step_partition {k : Kmem} {op : Op} (inv : Partition L k) (allowed : Allowed k op) :
    ∃ k', step L k op = .ok k' ∧ Partition L k' := by
  cases op with
  | kalloc =>
    match k with
    | ⟨[], out⟩ => exact ⟨_, rfl, by simpa [step, kalloc] using inv⟩
    | ⟨r :: rest, out⟩ =>
      have pos := Seeded.pos ((inv.seeded r).mp (by simp))
      refine ⟨_, rfl, inv.of_perm ?_⟩
      simp only [kalloc, Nat.ne_of_gt pos, if_false]
      exact List.perm_middle
  | kfree pa =>
    obtain ⟨aligned, up, fits⟩ := (inv.seeded pa).mp (List.mem_append_right _ allowed)
    have above := (PGROUNDUP_spec L.kernelEnd).2
    refine ⟨_, by rw [step, kfree_ok L aligned (by omega) (by simp only [PGSIZE] at fits; omega)]; rfl,
      inv.of_perm ?_⟩
    exact List.perm_middle.symm.trans
      (List.Perm.append_left k.freelist (List.perm_cons_erase allowed).symm)

theorem partition_reachable {k : Kmem} (reach : Reachable L k) : Partition L k := by
  induction reach with
  | init run =>
    obtain ⟨freelist, run', nodup, mem⟩ := kinit_seeds L
    rw [run] at run'
    cases run'
    exact ⟨by simpa using nodup, by simpa using mem⟩
  | step _ allowed ok ih =>
    obtain ⟨k', ok', inv⟩ := step_partition ih allowed
    rw [ok] at ok'
    cases ok'
    exact inv

/-- After `kinit`, over every run of `kalloc` and of `kfree` on frames handed out. -/
theorem kalloc_partition {k : Kmem} (reach : Reachable L k) :
    (∃ freelist, kinit L = .ok freelist) ∧ k.freelist.Nodup ∧
    (∀ p ∈ k.freelist, p % PGSIZE = 0 ∧ PGROUNDUP L.kernelEnd ≤ p ∧ p ≤ L.PHYSTOP - PGSIZE) ∧
    (∀ p ∈ k.freelist, p ∉ k.out) ∧ (∀ p, p ∈ k.freelist ∨ p ∈ k.out ↔ Seeded L p) ∧
    k.out.Nodup ∧ ((kalloc k.freelist).1 = 0 → ∀ p, Seeded L p → p ∈ k.out) := by
  obtain ⟨nodup, seeded⟩ := partition_reachable reach
  obtain ⟨free, out, apart⟩ := List.nodup_append.mp nodup
  have mem : ∀ p, p ∈ k.freelist ∨ p ∈ k.out ↔ Seeded L p := by simpa using seeded
  refine ⟨(kinit_seeds L).imp fun _ => And.left, free, fun p onList => ?_,
    fun p onList => apart onList, mem, out, fun none p fresh => ?_⟩
  · obtain ⟨aligned, up, fits⟩ := (mem p).mp (.inl onList)
    exact ⟨aligned, up, by omega⟩
  · match list : k.freelist with
    | [] => simpa [list] using (mem p).mpr fresh
    | r :: _ =>
      have pos := Seeded.pos ((mem r).mp (.inl (by simp [list])))
      simp only [list, kalloc] at none
      omega

/-- A layout of two frames, `[12288, 20480)` above an unaligned `end`. -/
def twoFrames : Layout := ⟨8193, 20480, by decide⟩

theorem kalloc_partition_two_frames :
    Reachable twoFrames ⟨[12288], [16384]⟩ ∧
    ((∃ freelist, kinit twoFrames = .ok freelist) ∧ [12288].Nodup ∧
    (∀ p ∈ [12288], p % PGSIZE = 0 ∧ PGROUNDUP 8193 ≤ p ∧ p ≤ 20480 - PGSIZE) ∧
    (∀ p ∈ [12288], p ∉ [16384]) ∧ (∀ p, p ∈ [12288] ∨ p ∈ [16384] ↔ Seeded twoFrames p) ∧
    [16384].Nodup ∧ ((kalloc [12288]).1 = 0 → ∀ p, Seeded twoFrames p → p ∈ [16384])) :=
  have seed : kinit twoFrames = .ok [16384, 12288] := by
    have up : PGROUNDUP 8193 = 12288 := rfl
    rw [kinit, freerange, twoFrames, up, freerangeFrom, if_pos (by decide),
      kfree_ok _ (by decide) (by decide) (by decide), Except.bind, freerangeFrom, if_pos (by decide),
      kfree_ok _ (by decide) (by decide) (by decide), Except.bind, freerangeFrom, if_neg (by decide)]
    rfl
  have reach : Reachable twoFrames ⟨[12288], [16384]⟩ :=
    @Reachable.step _ _ _ .kalloc (.init seed) trivial rfl
  ⟨reach, kalloc_partition reach⟩

end Xv6.Kalloc
