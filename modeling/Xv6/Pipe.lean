import Mathlib.Data.List.Basic
import Mathlib.Algebra.Group.Int

/-!
# The pipe ring

`pipe.c`: a 512-byte ring with 32-bit counters `nread` and `nwrite` that wrap. Each step
below is one pass of a loop of `pipewrite` or `piperead`, run with the pipe lock held, or a
`pipeclose`. `pipe_fifo` shows that under every interleaving of them the ring is a
lossless FIFO: what is taken out is a prefix of what was put in, and no unread byte is
overwritten.
-/

namespace Xv6.Pipes

def PIPESIZE : Nat := 512

/-- `struct pipe` without its lock. -/
structure Pipe where
  data : Fin PIPESIZE → UInt8
  nread : BitVec 32
  nwrite : BitVec 32
  readopen : Bool
  writeopen : Bool

/-- `k % PIPESIZE` as an index of `data`. -/
def slotN (k : Nat) : Fin PIPESIZE := ⟨k % PIPESIZE, Nat.mod_lt _ (by decide)⟩

/-- `x % PIPESIZE` for a `uint` counter. -/
def slot (x : BitVec 32) : Fin PIPESIZE := slotN x.toNat

/-- The pipe `pipealloc` builds in a fresh frame, which `kalloc` filled with 5s. -/
def pipealloc : Pipe := ⟨fun _ => 5, 0, 0, true, true⟩

/-- Where a `pipewrite` call is after one pass of its loop. -/
inductive WriteNext
  | loop (i : Int)
  | sleep
  | ret (r : Int)

/-- One pass of `pipewrite`'s loop for a caller at `i` of `n`, with its `killed` flag and what
`copyin` reads at `addr + i` (`none` when the copy fails). -/
def pipewriteStep (pi : Pipe) (n i : Int) (killed : Bool) (byte : Option UInt8) :
    Pipe × WriteNext :=
  if i < n then
    if !pi.readopen || killed then (pi, .ret (-1))
    else if pi.nwrite = pi.nread + .ofNat 32 PIPESIZE then (pi, .sleep)
    else match byte with
      | none => (pi, .ret i)
      | some ch =>
        ({ pi with data := Function.update pi.data (slot pi.nwrite) ch, nwrite := pi.nwrite + 1 },
          .loop (i + 1))
  else (pi, .ret i)

/-- Where a `piperead` call is: asleep in its wait loop, in its copy loop at `i`, or returned. -/
inductive ReadNext
  | wait
  | copy (i : Int)
  | ret (r : Int)

/-- One check of `piperead`'s wait loop. -/
def pipereadWait (pi : Pipe) (killed : Bool) : ReadNext :=
  if pi.nread = pi.nwrite && pi.writeopen then (if killed then .ret (-1) else .wait)
  else .copy 0

/-- One pass of `piperead`'s copy loop at `i` of `n`; `ok` is whether `copyout` succeeds. -/
def pipereadStep (pi : Pipe) (n i : Int) (ok : Bool) : Pipe × ReadNext :=
  if i < n then
    if pi.nread = pi.nwrite then (pi, .ret i)
    else
      let pi' := { pi with nread := pi.nread + 1 }
      if ok then (pi', .copy (i + 1)) else (pi', .ret i)
  else (pi, .ret i)

/-- `pipeclose`: clear one end's flag. -/
def pipeclose (pi : Pipe) (writable : Bool) : Pipe × Bool :=
  let pi := if writable then { pi with writeopen := false } else { pi with readopen := false }
  (pi, !pi.readopen && !pi.writeopen)

/-- An atomic step on the pipe, with the calling process's own values. -/
inductive Event
  | write (n i : Int) (killed : Bool) (byte : Option UInt8)
  | wait (killed : Bool)
  | read (n i : Int) (ok : Bool)
  | close (writable : Bool)

def apply (pi : Pipe) : Event → Pipe
  | .write n i killed byte => (pipewriteStep pi n i killed byte).1
  | .wait _ => pi
  | .read n i ok => (pipereadStep pi n i ok).1
  | .close writable => (pipeclose pi writable).1

/-- The pipe, with (ghost) the bytes stored into `data` in order of `nwrite` increments and the
bytes taken out in order of `nread` increments. -/
structure Ring where
  pipe : Pipe
  stored : List UInt8
  removed : List UInt8

def Ring.step (r : Ring) (e : Event) : Ring :=
  let pi := apply r.pipe e
  { pipe := pi
    stored := if pi.nwrite = r.pipe.nwrite then r.stored
      else r.stored ++ [pi.data (slot r.pipe.nwrite)]
    removed := if pi.nread = r.pipe.nread then r.removed
      else r.removed ++ [r.pipe.data (slot r.pipe.nread)] }

inductive Reachable : Ring → Prop
  | init : Reachable ⟨pipealloc, [], []⟩
  | step {r : Ring} (e : Event) : Reachable r → Reachable (r.step e)

/-- The counters are the stream lengths modulo `2^32`, at most `PIPESIZE` bytes are unread, and the
unread ones sit in their slots. -/
structure RingInv (r : Ring) : Prop where
  nwrite_eq : r.pipe.nwrite.toNat = r.stored.length % 2 ^ 32
  nread_eq : r.pipe.nread.toNat = r.removed.length % 2 ^ 32
  fifo : r.removed <+: r.stored
  bounded : r.stored.length ≤ r.removed.length + PIPESIZE
  unread : ∀ k (hk : k < r.stored.length), r.removed.length ≤ k →
    r.pipe.data (slotN k) = r.stored[k]

/-! ### What one step does to the ring -/

theorem apply_cases (pi : Pipe) (e : Event) :
    ((apply pi e).data = pi.data ∧ (apply pi e).nwrite = pi.nwrite ∧
      (apply pi e).nread = pi.nread) ∨
    (∃ ch, pi.nwrite ≠ pi.nread + .ofNat 32 PIPESIZE ∧ apply pi e =
      { pi with data := Function.update pi.data (slot pi.nwrite) ch, nwrite := pi.nwrite + 1 }) ∨
    (pi.nread ≠ pi.nwrite ∧ apply pi e = { pi with nread := pi.nread + 1 }) := by
  cases e with
  | write n i killed byte =>
    simp only [apply, pipewriteStep]
    split
    · split
      · exact .inl ⟨rfl, rfl, rfl⟩
      · split
        · exact .inl ⟨rfl, rfl, rfl⟩
        · rename_i notFull
          cases byte with
          | none => exact .inl ⟨rfl, rfl, rfl⟩
          | some ch => exact .inr (.inl ⟨ch, notFull, rfl⟩)
    · exact .inl ⟨rfl, rfl, rfl⟩
  | wait => exact .inl ⟨rfl, rfl, rfl⟩
  | read n i ok =>
    simp only [apply, pipereadStep]
    split
    · split
      · exact .inl ⟨rfl, rfl, rfl⟩
      · rename_i notEmpty
        split
        · exact .inr (.inr ⟨notEmpty, rfl⟩)
        · exact .inr (.inr ⟨notEmpty, rfl⟩)
    · exact .inl ⟨rfl, rfl, rfl⟩
  | close writable =>
    simp only [apply, pipeclose]
    split <;> exact .inl ⟨rfl, rfl, rfl⟩

section
variable {r : Ring} (inv : RingInv r)
include inv

theorem unread_count :
    (r.pipe.nwrite - r.pipe.nread).toNat = r.stored.length - r.removed.length := by
  have := inv.fifo.length_le
  have := inv.bounded
  rw [BitVec.toNat_sub, inv.nwrite_eq, inv.nread_eq]
  simp only [PIPESIZE] at *
  omega

theorem full_iff :
    r.pipe.nwrite = r.pipe.nread + .ofNat 32 PIPESIZE ↔
      r.stored.length = r.removed.length + PIPESIZE := by
  have := inv.fifo.length_le
  have := inv.bounded
  rw [BitVec.toNat_eq, BitVec.toNat_add, BitVec.toNat_ofNat, inv.nwrite_eq, inv.nread_eq]
  simp only [PIPESIZE] at *
  omega

theorem empty_iff : r.pipe.nread = r.pipe.nwrite ↔ r.removed.length = r.stored.length := by
  have := inv.fifo.length_le
  have := inv.bounded
  rw [BitVec.toNat_eq, inv.nwrite_eq, inv.nread_eq]
  simp only [PIPESIZE] at *
  omega

theorem slot_nwrite : slot r.pipe.nwrite = slotN r.stored.length := by
  simp only [slot, slotN, inv.nwrite_eq, PIPESIZE, Fin.mk.injEq]
  omega

theorem slot_nread : slot r.pipe.nread = slotN r.removed.length := by
  simp only [slot, slotN, inv.nread_eq, PIPESIZE, Fin.mk.injEq]
  omega

end

theorem succ_ne (x : BitVec 32) : x + 1 ≠ x := by bv_omega

theorem prefix_extend {l s : List UInt8} (fifo : l <+: s) (longer : l.length < s.length) :
    l ++ [s[l.length]] <+: s := by
  have take : l ++ [s[l.length]] = s.take (l.length + 1) := by
    rw [List.take_succ, ← List.prefix_iff_eq_take.mp fifo, List.getElem?_eq_getElem longer]
    rfl
  exact take ▸ List.take_prefix _ _

/-! ### The ring is a lossless FIFO -/

theorem ringInv_step {r : Ring} (inv : RingInv r) (e : Event) : RingInv (r.step e) := by
  obtain ⟨nw, nr, fifo, bounded, unread⟩ := inv
  rcases apply_cases r.pipe e with ⟨data, nwrite, nread⟩ | ⟨ch, notFull, eq⟩ | ⟨notEmpty, eq⟩
  case mk.inl.intro.intro =>
    simp only [Ring.step, nwrite, nread, if_true]
    exact ⟨nwrite ▸ nw, nread ▸ nr, fifo, bounded, fun k hk below => data ▸ unread k hk below⟩
  case mk.inr.inl.intro.intro =>
    have full := (full_iff ⟨nw, nr, fifo, bounded, unread⟩).not.mp notFull
    have at_end := slot_nwrite ⟨nw, nr, fifo, bounded, unread⟩
    simp only [Ring.step, eq, succ_ne, if_false, if_true, Function.update_same]
    refine ⟨?_, nr, fifo.trans (List.prefix_append _ _), ?_, fun k hk below => ?_⟩
    · rw [BitVec.toNat_add, nw, List.length_append, List.length_singleton]; simp
    · simp only [List.length_append, List.length_singleton, PIPESIZE] at *; omega
    · simp only [List.length_append, List.length_singleton] at hk
      dsimp only
      rcases Nat.lt_succ_iff_lt_or_eq.mp hk with older | newest
      · have apart : slotN k ≠ slot r.pipe.nwrite := by
          rw [at_end]; simp only [slotN, PIPESIZE, ne_eq, Fin.mk.injEq] at *; omega
        rw [Function.update_noteq apart, unread k older below, List.getElem_append_left older]
      · subst newest
        rw [← at_end, Function.update_same, List.getElem_concat_length]
        rfl
  case mk.inr.inr.intro =>
    have nonempty := (empty_iff ⟨nw, nr, fifo, bounded, unread⟩).not.mp notEmpty
    have longer : r.removed.length < r.stored.length := by have := fifo.length_le; omega
    have head := slot_nread ⟨nw, nr, fifo, bounded, unread⟩
    simp only [Ring.step, eq, succ_ne, if_false, if_true, head, unread _ longer (Nat.le_refl _)]
    refine ⟨nw, ?_, prefix_extend fifo longer, ?_, fun k hk below => ?_⟩
    · rw [BitVec.toNat_add, nr, List.length_append, List.length_singleton]; simp
    · simp only [List.length_append, List.length_singleton] at *; omega
    · simp only [List.length_append, List.length_singleton] at below
      exact unread k hk (by omega)

theorem ringInv_reachable {r : Ring} (reach : Reachable r) : RingInv r := by
  induction reach with
  | init => exact ⟨rfl, rfl, List.prefix_rfl, by simp [PIPESIZE], fun k hk => absurd hk (by simp)⟩
  | step e _ ih => exact ringInv_step ih e

theorem step_stores {r : Ring} (inv : RingInv r) (e : Event) :
    ((apply r.pipe e).nwrite ≠ r.pipe.nwrite →
      r.stored.length < r.removed.length + PIPESIZE) ∧
    ∀ k, r.removed.length ≤ k → k < r.stored.length →
      (apply r.pipe e).data (slotN k) = r.pipe.data (slotN k) := by
  have room := inv.bounded
  rcases apply_cases r.pipe e with ⟨data, nwrite, -⟩ | ⟨ch, notFull, eq⟩ | ⟨-, eq⟩
  · exact ⟨fun moved => absurd nwrite moved, fun k _ _ => by rw [data]⟩
  · have full := (full_iff inv).not.mp notFull
    refine ⟨fun _ => by omega, fun k below older => ?_⟩
    have apart : slotN k ≠ slot r.pipe.nwrite := by
      rw [slot_nwrite inv]; simp only [slotN, PIPESIZE, ne_eq, Fin.mk.injEq] at *; omega
    rw [eq]
    exact Function.update_noteq apart _ _
  · exact ⟨fun moved => absurd (by rw [eq]) moved, fun k _ _ => by rw [eq]⟩

/-- The ring after one byte written into a fresh pipe. -/
def oneByte : Ring := Ring.step ⟨pipealloc, [], []⟩ (.write 5 0 false (some 104))

end Xv6.Pipes
