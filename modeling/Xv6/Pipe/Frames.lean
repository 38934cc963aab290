import Xv6.Kalloc
import Xv6.Pipe
import Mathlib.Data.Fintype.Card
import Mathlib.Data.List.FinRange

/-!
# Pipes in frames

`pipealloc` takes two open files and a frame, and at its `bad` label gives back whatever it took
when one of them cannot be had; `pipeclose` hands the frame to `kfree` once both ends are closed.
The files come from `file.c`, not among the sources: `filealloc` takes the first file with no
reference, `filedup` adds one and `fileclose` drops one, closing the file's end of its pipe on the
last. The frames come from the allocator of `Xv6.Kalloc`, which the rest of the kernel shares.

`pipealloc_all_or_nothing` shows that `pipealloc` either builds the pipe in a fresh frame or leaves
the kernel as it found it, failing exactly when fewer than two files are free or no frame is;
`pipe_frames_tracked` that over every run a frame holds a pipe exactly while some open file names
one of its ends, one file an end, that the allocator only ever goes through runs of its own model,
and that no step the callers may take panics.
-/

namespace Xv6.Pipes.Frames

open Kalloc (Kmem Layout)

/-- The kinds of `struct file` the pipe code meets: `FD_NONE` and `FD_PIPE`. -/
inductive FileType
  | none
  | pipe
  deriving DecidableEq

/-- Modelled from the spec: `struct file` (`file.h` is not among the sources), with the frame of its pipe. -/
@[ext]
structure File where
  type : FileType
  ref : Nat
  readable : Bool
  writable : Bool
  pipe : Nat

/-- The state a pipe's life touches. -/
structure Sys (NFILE : Nat) where
  kmem : Kmem
  mem : Nat → Pipe
  ftable : Fin NFILE → File
  live : List Nat

variable {NFILE : Nat} (L : Layout)

/-! ### The code -/

/-- Modelled from the spec: `filealloc()` (`file.c` is not among the sources) takes the first file
with no reference. -/
def filealloc (ftable : Fin NFILE → File) : Option (Fin NFILE) × (Fin NFILE → File) :=
  match (List.finRange NFILE).find? fun f => (ftable f).ref = 0 with
  | some f => (some f, Function.update ftable f { ftable f with ref := 1 })
  | none => (none, ftable)

/-- Modelled from the spec: `filedup(f)` (`file.c` is not among the sources). -/
def filedup (s : Sys NFILE) (f : Fin NFILE) : Except String (Sys NFILE) :=
  if (s.ftable f).ref < 1 then .error "filedup"
  else
    let ff := s.ftable f
    .ok { s with ftable := Function.update s.ftable f { ff with ref := ff.ref + 1 } }

/-- `kalloc()` on the allocator, with the frame it returns, 0 when the free list is empty. -/
def kalloc (k : Kmem) : Nat × Kmem :=
  let (r, freelist) := Kalloc.kalloc k.freelist
  (r, ⟨freelist, if r = 0 then k.out else r :: k.out⟩)

/-- `kfree(pa)` on the allocator. -/
def kfree (s : Sys NFILE) (pa : Nat) : Except String (Sys NFILE) :=
  (Kalloc.step L s.kmem (.kfree pa)).map fun kmem => { s with kmem }

/-- `pipeclose(pi, writable)` on the pipe in frame `pi`, which goes back to `kfree` when both ends are closed. -/
def pipeclose (s : Sys NFILE) (pi : Nat) (writable : Bool) : Except String (Sys NFILE) :=
  let (p, freed) := Pipes.pipeclose (s.mem pi) writable
  let s := { s with mem := Function.update s.mem pi p }
  if freed then (kfree L s pi).map fun s => { s with live := s.live.erase pi } else .ok s

/-- Modelled from the spec: `fileclose(f)` (`file.c` is not among the sources). -/
def fileclose (s : Sys NFILE) (f : Fin NFILE) : Except String (Sys NFILE) :=
  let ff := s.ftable f
  if ff.ref < 1 then .error "fileclose"
  else if ff.ref - 1 > 0 then
    .ok { s with ftable := Function.update s.ftable f { ff with ref := ff.ref - 1 } }
  else
    let s := { s with ftable := Function.update s.ftable f { ff with ref := 0, type := .none } }
    if ff.type = .pipe then pipeclose L s ff.pipe ff.writable else .ok s

/-- The `bad` label of `pipealloc`. -/
def bad (s : Sys NFILE) (pi : Nat) (f0 f1 : Option (Fin NFILE)) :
    Except String (Int × Sys NFILE) := do
  let s ← if pi ≠ 0 then kfree L s pi else pure s
  let s ← match f0 with
    | some f => fileclose L s f
    | none => pure s
  let s ← match f1 with
    | some f => fileclose L s f
    | none => pure s
  return (-1, s)

/-- `pipealloc(f0, f1)`: `*f1` is only allocated when `*f0` was. -/
def pipealloc (s : Sys NFILE) : Except String (Int × Sys NFILE) :=
  let (f0, ftable) := filealloc s.ftable
  let (f1, ftable) := if f0.isSome then filealloc ftable else (none, ftable)
  let s := { s with ftable }
  match f0, f1 with
  | some f0, some f1 =>
    let (pi, kmem) := kalloc s.kmem
    let s := { s with kmem }
    if pi = 0 then bad L s pi (some f0) (some f1)
    else
      let ftable := Function.update s.ftable f0
        { s.ftable f0 with type := .pipe, readable := true, writable := false, pipe := pi }
      let ftable := Function.update ftable f1
        { ftable f1 with type := .pipe, readable := false, writable := true, pipe := pi }
      .ok (0, { s with ftable, mem := Function.update s.mem pi Pipes.pipealloc, live := pi :: s.live })
  | f0, f1 => bad L s 0 f0 f1

/-! ### Runs -/

/-- What the kernel does with pipes and frames. -/
inductive Event (NFILE : Nat)
  | pipealloc
  | filedup (f : Fin NFILE)
  | fileclose (f : Fin NFILE)
  | use (f : Fin NFILE) (e : Pipes.Event)
  | kernel (op : Kalloc.Op)

def step (s : Sys NFILE) : Event NFILE → Except String (Sys NFILE)
  | .pipealloc => (pipealloc L s).map Prod.snd
  | .filedup f => filedup s f
  | .fileclose f => fileclose L s f
  | .use f e =>
    let pi := (s.ftable f).pipe
    .ok { s with mem := Function.update s.mem pi (Pipes.apply (s.mem pi) e) }
  | .kernel op => (Kalloc.step L s.kmem op).map fun kmem => { s with kmem }

/-- The callers' side: files are duplicated, closed and used only while held, `pipeclose` is reached
only through `fileclose`, and the rest of the kernel frees only frames it was given. -/
def Allowed (s : Sys NFILE) : Event NFILE → Prop
  | .pipealloc => True
  | .filedup f | .fileclose f => 0 < (s.ftable f).ref
  | .use f e => 0 < (s.ftable f).ref ∧ (s.ftable f).type = .pipe ∧ ∀ w, e ≠ .close w
  | .kernel op => Kalloc.Allowed s.kmem op ∧ ∀ pa, op = .kfree pa → pa ∉ s.live

/-- After `kinit`, with the file table zeroed and whatever the frames hold. -/
def Sys.init (freelist : List Nat) (mem : Nat → Pipe) : Sys NFILE :=
  ⟨⟨freelist, []⟩, mem, fun _ => ⟨.none, 0, false, false, 0⟩, []⟩

inductive Reachable : Sys NFILE → Prop
  | init {freelist : List Nat} {mem : Nat → Pipe} : Kalloc.kinit L = .ok freelist →
    Reachable (Sys.init freelist mem)
  | step {s s' : Sys NFILE} {e : Event NFILE} : Reachable s → Allowed s e → step L s e = .ok s' →
    Reachable s'

theorem except_ok_bind {α β : Type} (a : α) (f : α → Except String β) :
    (Except.ok a >>= f) = f a := rfl

theorem except_ok_map {α β : Type} (a : α) (f : α → β) :
    (Except.ok a : Except String α).map f = .ok (f a) := rfl

/-! ### The invariant -/

/-- Whether end `w` of a pipe is open: its write end when `w`. -/
def isOpen (pi : Pipe) (w : Bool) : Bool := if w then pi.writeopen else pi.readopen

/-- The file is held and is end `w` of the pipe in frame `p`. -/
def File.IsEnd (x : File) (p : Nat) (w : Bool) : Prop :=
  0 < x.ref ∧ x.type = .pipe ∧ x.pipe = p ∧ x.writable = w

/-- The files `filealloc` may take. -/
def freeFiles (ftable : Fin NFILE → File) : Finset (Fin NFILE) :=
  Finset.univ.filter fun f => (ftable f).ref = 0

/-- The allocator went through a run of its own model. -/
structure Inv (s : Sys NFILE) : Prop where
  kmem : Kalloc.Reachable L s.kmem
  live_out : ∀ p ∈ s.live, p ∈ s.kmem.out
  live_nodup : s.live.Nodup
  closed : ∀ f, (s.ftable f).ref = 0 → (s.ftable f).type = .none
  named : ∀ f p w, (s.ftable f).IsEnd p w → p ∈ s.live
  ends : ∀ p ∈ s.live, ∀ w, isOpen (s.mem p) w ↔ ∃ f, (s.ftable f).IsEnd p w
  single : ∀ f g p w, (s.ftable f).IsEnd p w → (s.ftable g).IsEnd p w → f = g
  held : ∀ p ∈ s.live, ∃ w, isOpen (s.mem p) w

/-! ### Files -/

theorem File.with_ref_self {x : File} (zero : x.ref = 0) : { x with ref := 0 } = x := by
  obtain ⟨_, _, _, _, _⟩ := x
  subst zero
  rfl

theorem filealloc_spec (ftable : Fin NFILE → File) :
    (freeFiles ftable = ∅ ∧ filealloc ftable = (none, ftable)) ∨
    ∃ f ∈ freeFiles ftable,
      filealloc ftable = (some f, Function.update ftable f { ftable f with ref := 1 }) := by
  unfold filealloc
  split
  next f found => exact .inr ⟨f, by simpa [freeFiles] using List.find?_some found, rfl⟩
  next none =>
    refine .inl ⟨Finset.filter_eq_empty_iff.mpr fun f _ => ?_, rfl⟩
    simpa using List.find?_eq_none.mp none f (List.mem_finRange f)

theorem freeFiles_take (ftable : Fin NFILE → File) (f : Fin NFILE) :
    freeFiles (Function.update ftable f { ftable f with ref := 1 }) = (freeFiles ftable).erase f := by
  ext g
  by_cases same : g = f <;> simp [freeFiles, Function.update_apply, same]

theorem update_untaken {ftable : Fin NFILE → File} {f : Fin NFILE} (zero : (ftable f).ref = 0) :
    Function.update ftable f { ftable f with ref := 0 } = ftable := by
  rw [File.with_ref_self zero, Function.update_eq_self]

theorem fileclose_fresh {s : Sys NFILE} {f : Fin NFILE} (one : (s.ftable f).ref = 1)
    (fresh : (s.ftable f).type = .none) :
    fileclose L s f = .ok { s with ftable := Function.update s.ftable f { s.ftable f with ref := 0 } } := by
  simp [fileclose, one, fresh]

/-! ### `pipealloc` -/

theorem pipealloc_spec {s : Sys NFILE} (inv : Inv L s) :
    ∃ r s', pipealloc L s = .ok (r, s') ∧
      ((r = -1 ∧ s' = s ∧ ((freeFiles s.ftable).card < 2 ∨ s.kmem.freelist = [])) ∨
       (r = 0 ∧ ∃ f0 f1 pi rest, f0 ≠ f1 ∧ f0 ∈ freeFiles s.ftable ∧ f1 ∈ freeFiles s.ftable ∧
         s.kmem.freelist = pi :: rest ∧
         s' = { kmem := ⟨rest, pi :: s.kmem.out⟩
                mem := Function.update s.mem pi Pipes.pipealloc
                ftable := Function.update (Function.update s.ftable f0 ⟨.pipe, 1, true, false, pi⟩) f1
                  ⟨.pipe, 1, false, true, pi⟩
                live := pi :: s.live })) := by
  rcases filealloc_spec s.ftable with ⟨none0, take0⟩ | ⟨f0, free0, take0⟩
  · refine ⟨-1, s, ?_, .inl ⟨rfl, rfl, .inl (by simp [none0])⟩⟩
    simp only [pipealloc, take0]
    rfl
  · have one : (s.ftable f0).ref = 0 := by simpa [freeFiles] using free0
    rcases filealloc_spec (Function.update s.ftable f0 { s.ftable f0 with ref := 1 })
      with ⟨none1, take1⟩ | ⟨f1, free1, take1⟩
    · refine ⟨-1, s, ?_, .inl ⟨rfl, rfl, .inl ?_⟩⟩
      · have close0 := @fileclose_fresh NFILE L
          { s with ftable := Function.update s.ftable f0 { s.ftable f0 with ref := 1 } } f0
          (by simp) (by simpa using inv.closed f0 one)
        simp only [pipealloc, take0, take1, Option.isSome_some, if_true, bad, ne_eq, not_true_eq_false,
          if_false, pure_bind, close0, Function.update_idem, Function.update_same, update_untaken one]
        rfl
      · rw [freeFiles_take, Finset.erase_eq_empty_iff] at none1
        rcases none1 with same | same <;> simp [same]
    · rw [freeFiles_take, Finset.mem_erase] at free1
      obtain ⟨ne, free1⟩ := free1
      have two : (s.ftable f1).ref = 0 := by simpa [freeFiles] using free1
      match list : s.kmem.freelist with
      | [] =>
        refine ⟨-1, s, ?_, .inl ⟨rfl, rfl, .inr rfl⟩⟩
        have kmem : s.kmem = ⟨[], s.kmem.out⟩ := by rw [← list]
        simp only [pipealloc, take0, take1, Option.isSome_some, if_true, kalloc, list, Kalloc.kalloc,
          ← kmem, bad, ne_eq, not_true_eq_false, if_false, pure_bind]
        rw [fileclose_fresh L, except_ok_bind, fileclose_fresh L]
        all_goals simp [Function.update_apply, ne, Ne.symm ne, one, two, inv.closed f0 one, inv.closed f1 two]
        show _ = { s with ftable := s.ftable }
        congr 1
        funext g
        by_cases h1 : g = f1 <;> by_cases h0 : g = f0 <;>
          simp [Function.update_apply, File.ext_iff, h1, h0, ne, Ne.symm ne, one, two, inv.closed f0 one,
            inv.closed f1 two]
      | pi :: rest =>
        have pos := Kalloc.Seeded.pos (((Kalloc.partition_reachable inv.kmem).seeded pi).mp
          (by simp [list]))
        refine ⟨0, _, ?_, .inr ⟨rfl, f0, f1, pi, rest, Ne.symm ne, free0, free1, rfl, rfl⟩⟩
        simp only [pipealloc, take0, take1, Option.isSome_some, if_true, kalloc, list, Kalloc.kalloc,
          Nat.pos_iff_ne_zero.mp pos, if_false]
        congr 3
        funext g
        by_cases h1 : g = f1 <;> by_cases h0 : g = f0 <;> simp [Function.update_apply, h1, h0, ne, Ne.symm ne]

/-! ### What each step does to the invariant -/

theorem isOpen_pipeclose (pi : Pipe) (w v : Bool) :
    isOpen (Pipes.pipeclose pi w).1 v = (isOpen pi v && v != w) := by
  cases w <;> cases v <;> simp [isOpen, Pipes.pipeclose]

theorem pipeclose_freed (pi : Pipe) (w : Bool) : (Pipes.pipeclose pi w).2 = !isOpen pi !w := by
  cases w <;> simp [isOpen, Pipes.pipeclose]

theorem isOpen_apply (pi : Pipe) {e : Pipes.Event} (transfer : ∀ w, e ≠ .close w) (v : Bool) :
    isOpen (Pipes.apply pi e) v = isOpen pi v := by
  cases e with
  | write n i killed byte =>
    simp only [Pipes.apply, Pipes.pipewriteStep]
    split_ifs <;> (try split) <;> rfl
  | wait => rfl
  | read n i ok =>
    simp only [Pipes.apply, Pipes.pipereadStep]
    split_ifs <;> rfl
  | close w => exact absurd rfl (transfer w)

variable {L}

theorem Inv.init {freelist : List Nat} (mem : Nat → Pipe) (seed : Kalloc.kinit L = .ok freelist) :
    Inv L (Sys.init freelist mem : Sys NFILE) where
  kmem := .init seed
  live_out := by simp [Sys.init]
  live_nodup := List.nodup_nil
  closed _ _ := rfl
  named _ _ _ isEnd := absurd isEnd.1 (Nat.lt_irrefl 0)
  ends := by simp [Sys.init]
  single _ _ _ _ isEnd := absurd isEnd.1 (Nat.lt_irrefl 0)
  held := by simp [Sys.init]

theorem Inv.refile {s : Sys NFILE} (inv : Inv L s) (f : Fin NFILE) (x : File)
    (same : ∀ p w, x.IsEnd p w ↔ (s.ftable f).IsEnd p w) (closed : x.ref = 0 → x.type = .none) :
    Inv L { s with ftable := Function.update s.ftable f x } := by
  have same' : ∀ g p w, (Function.update s.ftable f x g).IsEnd p w ↔ (s.ftable g).IsEnd p w := by
    intro g p w
    by_cases h : g = f
    · subst h; simpa using same p w
    · simp [h]
  refine { inv with
    closed := fun g zero => ?_
    named := fun g p w isEnd => inv.named g p w ((same' g p w).mp isEnd)
    ends := fun p live w => (inv.ends p live w).trans (exists_congr fun g => (same' g p w).symm)
    single := fun g g' p w isEnd isEnd' =>
      inv.single g g' p w ((same' g p w).mp isEnd) ((same' g' p w).mp isEnd') }
  by_cases h : g = f
  · subst h; simp only [Function.update_same] at zero ⊢; exact closed zero
  · simp only [Function.update_noteq h] at zero ⊢; exact inv.closed g zero

theorem Inv.filedup_ok {s : Sys NFILE} (inv : Inv L s) {f : Fin NFILE} (held : 0 < (s.ftable f).ref) :
    ∃ s', filedup s f = .ok s' ∧ Inv L s' :=
  ⟨{ s with ftable := Function.update s.ftable f { s.ftable f with ref := (s.ftable f).ref + 1 } },
    by simp [filedup, Nat.not_lt.mpr held], inv.refile f _ (fun p w => by simp [File.IsEnd, held]) (by simp)⟩

theorem kfree_out {k : Kmem} {pa : Nat} (reach : Kalloc.Reachable L k) (out : pa ∈ k.out) :
    Kalloc.step L k (.kfree pa) = .ok ⟨pa :: k.freelist, k.out.erase pa⟩ := by
  obtain ⟨aligned, up, fits⟩ :=
    ((Kalloc.partition_reachable reach).seeded pa).mp (List.mem_append_right _ out)
  have := (Kalloc.PGROUNDUP_spec L.kernelEnd).2
  rw [Kalloc.step, Kalloc.kfree_ok L aligned (by omega) (by simp only [Kalloc.PGSIZE] at fits; omega)]
  rfl

theorem Inv.lastClose {s : Sys NFILE} (inv : Inv L s) {f : Fin NFILE} {p : Nat} {w : Bool}
    (isEnd : (s.ftable f).IsEnd p w) (one : (s.ftable f).ref = 1) :
    ∃ s', pipeclose L
      { s with ftable := Function.update s.ftable f { s.ftable f with ref := 0, type := .none } }
      p w = .ok s' ∧ Inv L s' := by
  have live := inv.named f p w isEnd
  set ft := Function.update s.ftable f { s.ftable f with ref := 0, type := .none }
  have others : ∀ g q v, (ft g).IsEnd q v ↔ g ≠ f ∧ (s.ftable g).IsEnd q v := by
    intro g q v
    by_cases h : g = f
    · subst h; simp [ft, File.IsEnd]
    · simp [ft, h]
  set mem := Function.update s.mem p (Pipes.pipeclose (s.mem p) w).1
  -- the files left on an end are those that were there but `f`
  have left : ∀ q v, (q = p → v ≠ w) → ((∃ g, (s.ftable g).IsEnd q v) ↔ ∃ g, (ft g).IsEnd q v) :=
    fun q v apart => exists_congr fun g => by
      refine ⟨fun isEnd' => (others g q v).mpr ⟨fun same => ?_, isEnd'⟩, fun isEnd' => ((others g q v).mp isEnd').2⟩
      subst same
      exact apart (isEnd'.2.2.1.symm.trans isEnd.2.2.1) (isEnd'.2.2.2.symm.trans isEnd.2.2.2)
  have ends : ∀ q ∈ s.live, ∀ v, isOpen (mem q) v ↔ ∃ g, (ft g).IsEnd q v := by
    intro q onList v
    by_cases hq : q = p
    · subst hq
      simp only [mem, Function.update_same, isOpen_pipeclose]
      by_cases hv : v = w
      · subst hv
        simp only [bne_self_eq_false, Bool.and_false, Bool.false_eq_true, false_iff, not_exists, others,
          not_and]
        exact fun g ne isEnd' => ne (inv.single g f q v isEnd' isEnd)
      · rw [bne_iff_ne.mpr hv, Bool.and_true, inv.ends q onList v]
        exact left q v fun _ => hv
    · rw [show mem q = s.mem q from Function.update_noteq hq _ _, inv.ends q onList v]
      exact left q v fun same => absurd same hq
  have closed : ∀ g, (ft g).ref = 0 → (ft g).type = .none := by
    intro g zero
    by_cases h : g = f
    · subst h; simp [ft]
    · simp only [ft, Function.update_noteq h] at zero ⊢; exact inv.closed g zero
  have named : ∀ g q v, (ft g).IsEnd q v → q ∈ s.live :=
    fun g q v isEnd' => inv.named g q v ((others g q v).mp isEnd').2
  have single : ∀ g g' q v, (ft g).IsEnd q v → (ft g').IsEnd q v → g = g' :=
    fun g g' q v isEnd' isEnd'' =>
      inv.single g g' q v ((others g q v).mp isEnd').2 ((others g' q v).mp isEnd'').2
  simp only [pipeclose, pipeclose_freed]
  cases other : isOpen (s.mem p) !w
  · -- the other end was closed: the frame is freed
    have shut : ∀ v, isOpen (mem p) v = false := by
      intro v
      simp only [mem, Function.update_same, isOpen_pipeclose]
      by_cases hv : v = w
      · simp [hv]
      · rw [show v = !w by cases v <;> cases w <;> simp at hv ⊢, other, Bool.false_and]
    have step := kfree_out inv.kmem (inv.live_out p live)
    refine ⟨_, by simp only [kfree, step, except_ok_map, if_true, Bool.not_false]; rfl, ?_⟩
    exact {
      kmem := .step inv.kmem (show Kalloc.Allowed s.kmem (.kfree p) from inv.live_out p live) step
      live_out := fun q onList => by
        obtain ⟨ne, onList⟩ := (inv.live_nodup.mem_erase_iff).mp onList
        exact (List.mem_erase_of_ne ne).mpr (inv.live_out q onList)
      live_nodup := inv.live_nodup.erase p
      closed := closed
      named := fun g q v isEnd' => by
        refine (inv.live_nodup.mem_erase_iff).mpr ⟨fun same => ?_, named g q v isEnd'⟩
        subst same
        simpa [shut] using (ends q live v).mpr ⟨g, isEnd'⟩
      ends := fun q onList => ends q (List.mem_of_mem_erase onList)
      single := single
      held := fun q onList => by
        obtain ⟨ne, onList⟩ := (inv.live_nodup.mem_erase_iff).mp onList
        simpa [mem, Function.update_noteq ne] using inv.held q onList }
  · -- the other end is still open
    refine ⟨_, rfl, { inv with closed, named, single, ends, held := fun q onList => ?_ }⟩
    by_cases hq : q = p
    · subst hq
      exact ⟨!w, by simp [mem, isOpen_pipeclose, other]⟩
    · simpa [mem, Function.update_noteq hq] using inv.held q onList

theorem Inv.fileclose_ok {s : Sys NFILE} (inv : Inv L s) {f : Fin NFILE} (held : 0 < (s.ftable f).ref) :
    ∃ s', fileclose L s f = .ok s' ∧ Inv L s' := by
  have taken : ¬(s.ftable f).ref < 1 := by omega
  by_cases more : (s.ftable f).ref - 1 > 0
  · refine ⟨_, by simp only [fileclose, taken, more, if_false, if_true],
      inv.refile f { s.ftable f with ref := (s.ftable f).ref - 1 } (fun p w => ?_) (by simp; omega)⟩
    simp [File.IsEnd, more, held]
  · by_cases pipe : (s.ftable f).type = .pipe
    · obtain ⟨s', close, inv'⟩ := inv.lastClose ⟨held, pipe, rfl, rfl⟩ (by omega)
      exact ⟨s', by simpa only [fileclose, taken, more, pipe, if_false, if_true] using close, inv'⟩
    · refine ⟨_, by simp only [fileclose, taken, more, pipe, if_false],
        inv.refile f { s.ftable f with ref := 0, type := .none } (fun p w => ?_) (fun _ => rfl)⟩
      simp [File.IsEnd, pipe]

theorem Inv.use_ok {s : Sys NFILE} (inv : Inv L s) (f : Fin NFILE) {e : Pipes.Event}
    (transfer : ∀ w, e ≠ .close w) :
    Inv L { s with mem := (Function.update s.mem (s.ftable f).pipe
      (Pipes.apply (s.mem (s.ftable f).pipe) e)) } := by
  have same : ∀ p v, isOpen (Function.update s.mem (s.ftable f).pipe
      (Pipes.apply (s.mem (s.ftable f).pipe) e) p) v = isOpen (s.mem p) v := by
    intro p v
    by_cases h : p = (s.ftable f).pipe
    · subst h; simp [isOpen_apply _ transfer]
    · simp [h]
  exact { inv with
    ends := fun p live v => by simpa only [same] using inv.ends p live v
    held := fun p live => by simpa only [same] using inv.held p live }

theorem out_step {k k' : Kmem} {op : Kalloc.Op} (step : Kalloc.step L k op = .ok k') {p : Nat}
    (out : p ∈ k.out) (kept : ∀ pa, op = .kfree pa → p ≠ pa) : p ∈ k'.out := by
  cases op with
  | kalloc =>
    simp only [Kalloc.step, Except.ok.injEq] at step
    subst step
    split <;> simp [out]
  | kfree pa =>
    simp only [Kalloc.step] at step
    cases free : Kalloc.kfree L k.freelist pa with
    | error e => simp [free, Except.map] at step
    | ok freelist =>
      simp only [free, except_ok_map, Except.ok.injEq] at step
      subst step
      exact (List.mem_erase_of_ne (kept pa rfl)).mpr out

theorem Inv.kernel_ok {s : Sys NFILE} (inv : Inv L s) {op : Kalloc.Op}
    (allowed : Kalloc.Allowed s.kmem op) (own : ∀ pa, op = .kfree pa → pa ∉ s.live) :
    ∃ k', Kalloc.step L s.kmem op = .ok k' ∧ Inv L { s with kmem := k' } := by
  obtain ⟨k', step, -⟩ := Kalloc.step_partition (Kalloc.partition_reachable inv.kmem) allowed
  exact ⟨k', step, { inv with
    kmem := .step inv.kmem allowed step
    live_out := fun p live => out_step step (inv.live_out p live)
      fun pa free same => own pa free (same ▸ live) }⟩

theorem Inv.built {s : Sys NFILE} (inv : Inv L s) {f0 f1 : Fin NFILE} {pi : Nat} {rest : List Nat}
    (ne : f0 ≠ f1) (free0 : (s.ftable f0).ref = 0) (free1 : (s.ftable f1).ref = 0)
    (list : s.kmem.freelist = pi :: rest) :
    Inv L { kmem := ⟨rest, pi :: s.kmem.out⟩
            mem := Function.update s.mem pi Pipes.pipealloc
            ftable := Function.update (Function.update s.ftable f0 ⟨.pipe, 1, true, false, pi⟩) f1
              ⟨.pipe, 1, false, true, pi⟩
            live := pi :: s.live } := by
  have nodup := (Kalloc.partition_reachable inv.kmem).nodup
  have onFree : pi ∈ s.kmem.freelist := list ▸ List.mem_cons_self pi rest
  have fresh : pi ∉ s.live := fun live =>
    (List.nodup_append.mp nodup).2.2 onFree (inv.live_out pi live)
  have pos := Kalloc.Seeded.pos (((Kalloc.partition_reachable inv.kmem).seeded pi).mp
    (List.mem_append_left _ onFree))
  have step : Kalloc.step L s.kmem .kalloc = .ok ⟨rest, pi :: s.kmem.out⟩ := by
    simp [Kalloc.step, list, Kalloc.kalloc, Nat.pos_iff_ne_zero.mp pos]
  set ft := Function.update (Function.update s.ftable f0 ⟨.pipe, 1, true, false, pi⟩) f1
    ⟨.pipe, 1, false, true, pi⟩
  have isEnd : ∀ g q v, (ft g).IsEnd q v ↔
      q = pi ∧ (g = f0 ∧ v = false ∨ g = f1 ∧ v = true) ∨ (s.ftable g).IsEnd q v := by
    intro g q v
    by_cases h1 : g = f1
    · subst h1
      simp [ft, File.IsEnd, free1, eq_comm, ne, Ne.symm ne]
    · by_cases h0 : g = f0
      · subst h0
        simp [ft, File.IsEnd, Function.update_apply, free0, eq_comm, h1, Ne.symm h1]
      · simp [ft, h0, h1]
  have old : ∀ g q v, (s.ftable g).IsEnd q v → q ≠ pi :=
    fun g q v e same => fresh (same ▸ inv.named g q v e)
  have kept : ∀ q ∈ s.live, Function.update s.mem pi Pipes.pipealloc q = s.mem q :=
    fun q onList => Function.update_noteq (fun same : q = pi => fresh (same ▸ onList)) _ _
  refine {
    kmem := .step inv.kmem (show Kalloc.Allowed s.kmem .kalloc from trivial) step
    live_out := fun q onList => ?_
    live_nodup := List.nodup_cons.mpr ⟨fresh, inv.live_nodup⟩
    closed := fun g zero => ?_
    named := fun g q v e => ?_
    ends := fun q onList v => ?_
    single := fun g g' q v e e' => ?_
    held := fun q onList => ?_ }
  all_goals dsimp only at *
  · rcases List.mem_cons.mp onList with rfl | onList
    · exact List.mem_cons_self _ _
    · exact List.mem_cons_of_mem _ (inv.live_out q onList)
  · by_cases h1 : g = f1
    · subst h1; simp [ft] at zero
    · by_cases h0 : g = f0
      · subst h0; simp [ft, h1] at zero
      · simp only [ft, Function.update_noteq h1, Function.update_noteq h0] at zero ⊢
        exact inv.closed g zero
  · rcases (isEnd g q v).mp e with ⟨rfl, -⟩ | e
    · exact List.mem_cons_self _ _
    · exact List.mem_cons_of_mem _ (inv.named g q v e)
  · rcases List.mem_cons.mp onList with rfl | onList
    · -- the new pipe: both ends open, each through its file
      rw [Function.update_same]
      cases v
      · exact iff_of_true rfl ⟨f0, (isEnd f0 q false).mpr (.inl ⟨rfl, .inl ⟨rfl, rfl⟩⟩)⟩
      · exact iff_of_true rfl ⟨f1, (isEnd f1 q true).mpr (.inl ⟨rfl, .inr ⟨rfl, rfl⟩⟩)⟩
    · rw [kept q onList, inv.ends q onList v]
      exact exists_congr fun g => ⟨fun e => (isEnd g q v).mpr (.inr e),
        fun e => ((isEnd g q v).mp e).resolve_left fun h => fresh (h.1 ▸ onList)⟩
  · rcases (isEnd g q v).mp e with ⟨rfl, e0⟩ | e
    · rcases (isEnd g' q v).mp e' with ⟨-, e0'⟩ | e'
      · rcases e0 with ⟨rfl, rfl⟩ | ⟨rfl, rfl⟩ <;> rcases e0' with ⟨rfl, h⟩ | ⟨rfl, h⟩ <;>
          first | rfl | exact absurd h (by decide)
      · exact absurd rfl (old g' q v e')
    · rcases (isEnd g' q v).mp e' with ⟨same, -⟩ | e'
      · exact absurd same (old g q v e)
      · exact inv.single g g' q v e e'
  · rcases List.mem_cons.mp onList with rfl | onList
    · exact ⟨false, by simp [isOpen, Pipes.pipealloc]⟩
    · rw [kept q onList]
      exact inv.held q onList

theorem Inv.pipealloc_ok {s : Sys NFILE} (inv : Inv L s) :
    ∃ r s', pipealloc L s = .ok (r, s') ∧ Inv L s' := by
  obtain ⟨r, s', run, ⟨-, rfl, -⟩ | ⟨-, f0, f1, pi, rest, ne, free0, free1, list, rfl⟩⟩ :=
    pipealloc_spec L inv
  · exact ⟨r, _, run, inv⟩
  · exact ⟨r, _, run,
      inv.built ne (by simpa [freeFiles] using free0) (by simpa [freeFiles] using free1) list⟩

theorem Inv.step_ok {s : Sys NFILE} {e : Event NFILE} (inv : Inv L s) (allowed : Allowed s e) :
    ∃ s', step L s e = .ok s' ∧ Inv L s' := by
  cases e with
  | pipealloc =>
    obtain ⟨r, s', run, inv'⟩ := inv.pipealloc_ok
    exact ⟨s', by simp [step, run, except_ok_map], inv'⟩
  | filedup f => exact inv.filedup_ok allowed
  | fileclose f => exact inv.fileclose_ok allowed
  | use f e => exact ⟨_, rfl, inv.use_ok f allowed.2.2⟩
  | kernel op =>
    obtain ⟨k', run, inv'⟩ := inv.kernel_ok allowed.1 allowed.2
    exact ⟨_, by simp [step, run, except_ok_map], inv'⟩

theorem Reachable.inv {s : Sys NFILE} (reach : Reachable L s) : Inv L s := by
  induction reach with
  | init seed => exact Inv.init _ seed
  | step _ allowed run ih =>
    obtain ⟨s', run', inv'⟩ := ih.step_ok allowed
    rw [run] at run'
    cases run'
    exact inv'

/-! ### Results -/

/-- A layout of two frames, `[12288, 20480)`, above an unaligned `end`. -/
def sampleLayout : Layout := ⟨8193, 20480, by decide⟩

theorem sampleLayout_kinit : Kalloc.kinit sampleLayout = .ok [16384, 12288] := by
  have up : Kalloc.PGROUNDUP 8193 = 12288 := rfl
  rw [Kalloc.kinit, Kalloc.freerange, sampleLayout, up, Kalloc.freerangeFrom, if_pos (by decide),
    Kalloc.kfree_ok _ (by decide) (by decide) (by decide), Except.bind, Kalloc.freerangeFrom,
    if_pos (by decide), Kalloc.kfree_ok _ (by decide) (by decide) (by decide), Except.bind,
    Kalloc.freerangeFrom, if_neg (by decide)]
  rfl

/-- Two files, both free, after `kinit` on `sampleLayout`. -/
def bootSys : Sys 2 := Sys.init [16384, 12288] fun _ => Pipes.pipealloc

theorem bootSys_reachable : Reachable sampleLayout bootSys := .init sampleLayout_kinit

/-- The kernel after a first `pipealloc`, from `bootSys`. -/
def onePipe : Sys 2 := ((step sampleLayout bootSys .pipealloc).toOption).getD bootSys

theorem onePipe_reachable : Reachable sampleLayout onePipe :=
  .step bootSys_reachable (show Allowed bootSys .pipealloc from trivial) rfl

/-- `pipealloc`, from every state the kernel reaches, never panics and is all or nothing. -/
theorem pipealloc_all_or_nothing {s : Sys NFILE} (reach : Reachable L s) :
    ∃ r s', pipealloc L s = .ok (r, s') ∧
      ((r = -1 ∧ s' = s ∧ ((freeFiles s.ftable).card < 2 ∨ s.kmem.freelist = [])) ∨
       (r = 0 ∧ ∃ f0 f1 pi rest, f0 ≠ f1 ∧ f0 ∈ freeFiles s.ftable ∧ f1 ∈ freeFiles s.ftable ∧
         s.kmem.freelist = pi :: rest ∧
         s' = { kmem := ⟨rest, pi :: s.kmem.out⟩
                mem := Function.update s.mem pi Pipes.pipealloc
                ftable := Function.update (Function.update s.ftable f0 ⟨.pipe, 1, true, false, pi⟩) f1
                  ⟨.pipe, 1, false, true, pi⟩
                live := pi :: s.live })) :=
  pipealloc_spec L reach.inv

theorem pipealloc_all_or_nothing_at_boot :
    Reachable sampleLayout bootSys ∧ ∃ r s', pipealloc sampleLayout bootSys = .ok (r, s') ∧
      ((r = -1 ∧ s' = bootSys ∧ ((freeFiles bootSys.ftable).card < 2 ∨ bootSys.kmem.freelist = [])) ∨
       (r = 0 ∧ ∃ f0 f1 pi rest, f0 ≠ f1 ∧ f0 ∈ freeFiles bootSys.ftable ∧
         f1 ∈ freeFiles bootSys.ftable ∧ bootSys.kmem.freelist = pi :: rest ∧
         s' = { kmem := ⟨rest, pi :: bootSys.kmem.out⟩
                mem := Function.update bootSys.mem pi Pipes.pipealloc
                ftable := Function.update (Function.update bootSys.ftable f0 ⟨.pipe, 1, true, false, pi⟩)
                  f1 ⟨.pipe, 1, false, true, pi⟩
                live := pi :: bootSys.live })) :=
  ⟨bootSys_reachable, pipealloc_all_or_nothing bootSys_reachable⟩

/-- Frames holding a pipe are tracked: handed out, freed at the last close, and no step panics. -/
theorem pipe_frames_tracked {s : Sys NFILE} (reach : Reachable L s) :
    Kalloc.Reachable L s.kmem ∧ s.live.Nodup ∧
    (∀ p ∈ s.live, p ∈ s.kmem.out ∧ p ∉ s.kmem.freelist) ∧
    (∀ p, p ∈ s.live ↔ ∃ f w, (s.ftable f).IsEnd p w) ∧
    (∀ p ∈ s.live, ∀ w, isOpen (s.mem p) w ↔ ∃ f, (s.ftable f).IsEnd p w) ∧
    (∀ f g p w, (s.ftable f).IsEnd p w → (s.ftable g).IsEnd p w → f = g) ∧
    ∀ e, Allowed s e → ∃ s', step L s e = .ok s' := by
  have inv := reach.inv
  refine ⟨inv.kmem, inv.live_nodup, fun p live => ⟨inv.live_out p live, fun free => ?_⟩,
    fun p => ⟨fun live => ?_, fun ⟨f, w, isEnd⟩ => inv.named f p w isEnd⟩, inv.ends, inv.single,
    fun e allowed => (inv.step_ok allowed).imp fun _ => And.left⟩
  · exact (List.nodup_append.mp (Kalloc.partition_reachable inv.kmem).nodup).2.2 free
      (inv.live_out p live)
  · obtain ⟨w, opened⟩ := inv.held p live
    obtain ⟨f, isEnd⟩ := (inv.ends p live w).mp opened
    exact ⟨f, w, isEnd⟩

theorem pipe_frames_tracked_one_pipe :
    Reachable sampleLayout onePipe ∧ Kalloc.Reachable sampleLayout onePipe.kmem ∧ onePipe.live.Nodup ∧
    (∀ p ∈ onePipe.live, p ∈ onePipe.kmem.out ∧ p ∉ onePipe.kmem.freelist) ∧
    (∀ p, p ∈ onePipe.live ↔ ∃ f w, (onePipe.ftable f).IsEnd p w) ∧
    (∀ p ∈ onePipe.live, ∀ w, isOpen (onePipe.mem p) w ↔ ∃ f, (onePipe.ftable f).IsEnd p w) ∧
    (∀ f g p w, (onePipe.ftable f).IsEnd p w → (onePipe.ftable g).IsEnd p w → f = g) ∧
    ∀ e, Allowed onePipe e → ∃ s', step sampleLayout onePipe e = .ok s' :=
  ⟨onePipe_reachable, pipe_frames_tracked onePipe_reachable⟩

end Xv6.Pipes.Frames
