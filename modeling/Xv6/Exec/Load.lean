import Xv6.Exec

/-!
# What the loader reads

`exec` walks the program headers with `int off`, set from the 64-bit `elf.phoff`, and hands
`loadseg` the segment's `off` and `filesz` as `uint`s; `readi` takes its offset as a `uint`.
So every offset the loader reads from is a 32-bit one: program header `i` is read at
`phoff + 56 * i` modulo `2^32` (`exec_header_reads`), and a segment's bytes from `off` modulo
`2^32`, `filesz` modulo `2^32` of them, a page at a time (`loadseg_pageReads`). A header whose
`phoff`, `off` or `filesz` reaches `2^32` is loaded from the offsets its low 32 bits name, with
no check that the 64-bit ranges lie inside the file. And `loadseg`'s `uint i` wraps: a segment
whose 32-bit size is within a page of `2^32` is never loaded (`loadseg_wraps`), while any other
ends within one pass a page (`loadseg_ends`).
-/

namespace Xv6.Exec

/-- The `readi` calls made, in order: offset, count and destination. -/
def reads : List Call → List (BitVec 32 × BitVec 32 × Into)
  | [] => []
  | .readi off n into :: calls => (off, n, into) :: reads calls
  | _ :: calls => reads calls

@[simp] theorem reads_append (calls calls' : List Call) :
    reads (calls ++ calls') = reads calls ++ reads calls' := by
  induction calls with
  | nil => rfl
  | cons c calls ih => cases c <;> simp [reads, ih]

/-- The offsets the program headers were read from. -/
def headerReads (calls : List Call) : List (BitVec 32) :=
  ((reads calls).filter fun read => read.2.2 = .ph).map (·.1)

@[simp] theorem headerReads_append (calls calls' : List Call) :
    headerReads (calls ++ calls') = headerReads calls ++ headerReads calls' := by
  simp [headerReads]

@[simp] theorem headerReads_nil : headerReads [] = [] := rfl

theorem headerReads_cons_quiet {c : Call} (calls : List Call) (quiet : ∀ off n, c ≠ .readi off n .ph) :
    headerReads (c :: calls) = headerReads calls := by
  cases c
  case readi off n into => cases into <;> simp_all [headerReads, reads]
  all_goals rfl

/-- The offsets `exec`'s loop reads `m` program headers from, starting at `off`. -/
def headerOffsets (off m : Nat) : List Nat := (List.range m).map fun i => (off + 56 * i) % 2 ^ 32

theorem headerOffsets_mod (off m : Nat) : headerOffsets (off % 2 ^ 32) m = headerOffsets off m := by
  simp only [headerOffsets, Nat.mod_add_mod]

theorem headerOffsets_succ (off : BitVec 32) (m : Nat) :
    headerOffsets off.toNat (m + 1) = off.toNat :: headerOffsets (off + sizeofProghdr).toNat m := by
  have small := off.isLt
  have size : sizeofProghdr.toNat = 56 := rfl
  simp only [headerOffsets, List.range_succ_eq_map, List.map_cons, List.map_map, BitVec.toNat_add,
    size, Nat.mod_add_mod]
  congr 1
  · omega
  · exact List.map_congr_left fun i _ => by simp only [Function.comp]; omega

theorem headerOffsets_one (off : BitVec 32) : headerOffsets off.toNat 1 = [off.toNat] := by
  show [(off.toNat + 56 * 0) % 2 ^ 32] = _
  rw [Nat.mul_zero, Nat.add_zero, Nat.mod_eq_of_lt off.isLt]

/-- The program headers `l` has read: those of `before`, then `m` from `off` on. -/
def ReadHeaders (before : List Nat) (off m : Nat) (l : Locals) : Prop :=
  (headerReads l.calls).map BitVec.toNat = before ++ headerOffsets off m

theorem ReadHeaders.succ {before : List Nat} {off : BitVec 32} {m : Nat} {l : Locals}
    (read : ReadHeaders (before ++ [off.toNat]) (off + sizeofProghdr).toNat m l) :
    ReadHeaders before off.toNat (m + 1) l := by
  rw [ReadHeaders, headerOffsets_succ]
  simpa [ReadHeaders] using read

/-- The reads into pages: offset and count. -/
def pageReads (calls : List Call) : List (BitVec 32 × BitVec 32) :=
  (reads calls).filterMap fun read =>
    match read.2.2 with
    | .page _ => some (read.1, read.2.1)
    | _ => none

@[simp] theorem pageReads_append (calls calls' : List Call) :
    pageReads (calls ++ calls') = pageReads calls ++ pageReads calls' := by
  simp [pageReads]

/-- The reads of a segment of `sz` bytes at file offset `offset`, from byte `i` on, a page at a time
and the last one short, at 32-bit offsets. -/
def segmentChunks (offset i sz : Nat) : List (Nat × Nat) :=
  (List.range ((sz - i + 4095) / 4096)).map fun j =>
    ((offset + i + 4096 * j) % 2 ^ 32, min 4096 (sz - i - 4096 * j))

example : segmentChunks 0 0 5000 = [(0, 4096), (4096, 904)] := by decide

theorem segmentChunks_done {offset i sz : Nat} (done : sz ≤ i) : segmentChunks offset i sz = [] := by
  simp [segmentChunks, Nat.sub_eq_zero_of_le done]

theorem segmentChunks_next {offset i sz : Nat} (below : i < sz) :
    segmentChunks offset i sz =
      ((offset + i) % 2 ^ 32, min 4096 (sz - i)) :: segmentChunks offset (i + 4096) sz := by
  have pages : (sz - i + 4095) / 4096 = (sz - (i + 4096) + 4095) / 4096 + 1 := by omega
  rw [segmentChunks, pages, List.range_succ_eq_map, List.map_cons, List.map_map, segmentChunks]
  refine congrArg₂ List.cons (by simp) (List.map_congr_left fun j _ => ?_)
  exact Prod.ext (congrArg (· % 2 ^ 32) (by omega)) (congrArg (min 4096) (by omega))

/-! ### A file whose ranges end past it -/

/-- The ELF header of a 120-byte file, whose one program header it puts at `2^32 + 64`. -/
def farElf : Elfhdr := ⟨ELF_MAGIC, 0, 0x100000040, 1⟩

/-- The program header at 64 of that file. -/
def farSegment : Proghdr := ⟨ELF_PROG_LOAD, 0, 0, 0, 0x100000078, 0x100001000⟩

/-- The 120-byte file, each `readi` inside its bytes answered in full. -/
def farFile : Env where
  namei := some 1
  readi k := if k = 3 then sizeofElfhdr else if k = 5 then sizeofProghdr else 120
  elf _ := farElf
  ph _ := farSegment
  procPagetable := 1
  uvmalloc _ _ _ := true
  walkaddr _ := 4096
  copyout _ := true
  safestrcpy s _ := s

/-- The locals before any call. -/
def startLocals : Locals := ⟨[], 1, 0, none⟩

section
variable {cs : Consts} {env : Env} {pagetable : Nat} {va : BitVec 64} {offset sz : BitVec 32}

theorem loadseg_headerReads (fuel : Nat) (i : BitVec 32) (l : Locals) :
    (loadseg env pagetable va offset sz fuel i l).All
      (fun r => headerReads r.1.calls = headerReads l.calls) fun _ => False := by
  induction fuel generalizing i l with
  | zero => trivial
  | succ fuel ih =>
    simp only [loadseg]
    refine .ite (fun _ => .ite (fun _ => trivial) fun _ => ?_) fun _ => rfl
    exact .ite (fun _ => by simp [Flow.All, headerReads, reads]) fun _ =>
      (ih _ _).imp (fun _ read => read.trans (by simp [headerReads, reads])) fun _ => id

/-- On a segment whose 32-bit size is a page short of `2^32` or less, `loadseg`'s loop from `i` that
returns 0 has read the segment's bytes from `i` on, a page at a time; `i` does not wrap. -/
theorem loadseg_pageReads (small : sz.toNat ≤ 2 ^ 32 - 4096) (fuel : Nat) (i : BitVec 32)
    (l : Locals) :
    (loadseg env pagetable va offset sz fuel i l).All
      (fun r => r.2 = 0 → (pageReads r.1.calls).map (fun rd => (rd.1.toNat, rd.2.toNat)) =
        (pageReads l.calls).map (fun rd => (rd.1.toNat, rd.2.toNat)) ++
          segmentChunks offset.toNat i.toNat sz.toNat)
      fun _ => True := by
  have page : (PGSIZE.truncate 32 : BitVec 32).toNat = 4096 := rfl
  induction fuel generalizing i l with
  | zero => trivial
  | succ fuel ih =>
    simp only [loadseg]
    refine .ite (fun below => .ite (fun _ => trivial) fun _ => ?_) fun above _ => ?_
    · rw [BitVec.lt_def] at below
      have count : (if sz - i < PGSIZE.truncate 32 then sz - i else PGSIZE.truncate 32).toNat =
          min 4096 (sz.toNat - i.toNat) := by
        split <;> rename_i short <;> rw [BitVec.lt_def, BitVec.toNat_sub, page] at * <;> omega
      have next : (i + PGSIZE.truncate 32).toNat = i.toNat + 4096 := by
        rw [BitVec.toNat_add, page]; omega
      refine .ite (fun _ failed => by simp at failed) fun _ =>
        (ih _ _).imp (fun r read zero => ?_) fun _ _ => trivial
      rw [read zero, segmentChunks_next below, next]
      simp [pageReads, reads, count, BitVec.toNat_add]
    · rw [BitVec.lt_def, Nat.not_lt] at above
      simp [segmentChunks_done above]

theorem loadseg_pageReads_far_file :
    (120 : BitVec 32).toNat ≤ 2 ^ 32 - 4096 ∧
    (loadseg farFile 1 0 0 120 2 0 startLocals).All
      (fun r => r.2 = 0 → (pageReads r.1.calls).map (fun rd => (rd.1.toNat, rd.2.toNat)) =
        (pageReads startLocals.calls).map (fun rd => (rd.1.toNat, rd.2.toNat)) ++
          segmentChunks (0 : BitVec 32).toNat (0 : BitVec 32).toNat (120 : BitVec 32).toNat)
      fun _ => True :=
  ⟨by decide, loadseg_pageReads (by decide) 2 0 startLocals⟩

theorem Flow.ite_ne_diverge {α : Type} {c : Prop} [Decidable c] {f g : Flow α}
    (pos : c → f ≠ .diverge) (neg : ¬c → g ≠ .diverge) : (if c then f else g) ≠ .diverge := by
  split
  exacts [pos ‹_›, neg ‹_›]

/-- With enough fuel `loadseg`'s loop ends. -/
theorem loadseg_ends (small : sz.toNat ≤ 2 ^ 32 - 4096) (fuel : Nat) (i : BitVec 32) (l : Locals)
    (enough : (sz.toNat - i.toNat + 4095) / 4096 < fuel) :
    loadseg env pagetable va offset sz fuel i l ≠ .diverge := by
  have page : (PGSIZE.truncate 32 : BitVec 32).toNat = 4096 := rfl
  induction fuel generalizing i l with
  | zero => omega
  | succ fuel ih =>
    simp only [loadseg]
    refine Flow.ite_ne_diverge (fun below => ?_) fun _ => Flow.noConfusion
    rw [BitVec.lt_def] at below
    have next : (i + PGSIZE.truncate 32).toNat = i.toNat + 4096 := by
      rw [BitVec.toNat_add, page]; omega
    exact Flow.ite_ne_diverge (fun _ => Flow.noConfusion) fun _ =>
      Flow.ite_ne_diverge (fun _ => Flow.noConfusion) fun _ => ih _ _ (by rw [next]; omega)

theorem loadseg_ends_far_file :
    (120 : BitVec 32).toNat ≤ 2 ^ 32 - 4096 ∧ ((120 : BitVec 32).toNat - (0 : BitVec 32).toNat + 4095) / 4096 < 2 ∧
    loadseg farFile 1 0 0 120 2 0 startLocals ≠ .diverge :=
  ⟨by decide, by decide, loadseg_ends (by decide) 2 0 startLocals (by decide)⟩

/-- On a segment whose 32-bit size is within a page of `2^32`, `loadseg`'s loop never returns 0. -/
theorem loadseg_wraps (near : 2 ^ 32 - 4096 < sz.toNat) (fuel : Nat) (i : BitVec 32) (l : Locals)
    (aligned : i.toNat % 4096 = 0) :
    (loadseg env pagetable va offset sz fuel i l).All (fun r => r.2 ≠ 0) fun _ => True := by
  have page : (PGSIZE.truncate 32 : BitVec 32).toNat = 4096 := rfl
  induction fuel generalizing i l with
  | zero => trivial
  | succ fuel ih =>
    have below : i < sz := by rw [BitVec.lt_def]; have := i.isLt; omega
    simp only [loadseg, if_pos below]
    refine .ite (fun _ => trivial) fun _ => .ite (fun _ => by simp [Flow.All]) fun _ => ih _ _ ?_
    rw [BitVec.toNat_add, page]
    omega

theorem loadseg_wraps_near_top :
    2 ^ 32 - 4096 < (0xFFFFF001 : BitVec 32).toNat ∧ (0 : BitVec 32).toNat % 4096 = 0 ∧
    (loadseg farFile 1 0 0 0xFFFFF001 3 0 startLocals).All (fun r => r.2 ≠ 0) fun _ => True :=
  ⟨by decide, by decide, loadseg_wraps (by decide) 3 0 startLocals (by decide)⟩

theorem loadSegments_headerReads (fuel left : Nat) (off : BitVec 32) {before : List Nat}
    (l : Locals) (read : (headerReads l.calls).map BitVec.toNat = before) :
    (loadSegments cs env fuel left off l).All (ReadHeaders before off.toNat left)
      fun l' => ∃ m ≤ left, ReadHeaders before off.toNat m l' := by
  induction left generalizing off before l with
  | zero => simp [Flow.All, loadSegments, ReadHeaders, headerOffsets, read]
  | succ left ih =>
    -- the loop's own read, which every way on or out keeps
    have own {l' : Locals}
        (same : headerReads l'.calls = headerReads (l.call (.readi off sizeofProghdr .ph)).calls) :
        (headerReads l'.calls).map BitVec.toNat = before ++ [off.toNat] := by
      rw [same]
      simp [← read, headerReads, reads]
    have first {l' : Locals}
        (same : headerReads l'.calls = headerReads (l.call (.readi off sizeofProghdr .ph)).calls) :
        ∃ m ≤ left + 1, ReadHeaders before off.toNat m l' :=
      ⟨1, by omega, by rw [ReadHeaders, own same, headerOffsets_one]⟩
    have rest {l' : Locals}
        (same : headerReads l'.calls = headerReads (l.call (.readi off sizeofProghdr .ph)).calls) :
        (loadSegments cs env fuel left (off + sizeofProghdr) l').All
          (ReadHeaders before off.toNat (left + 1)) fun l' => ∃ m ≤ left + 1, ReadHeaders before off.toNat m l' :=
      (ih (off + sizeofProghdr) l' (own same)).imp (fun _ => ReadHeaders.succ)
        fun _ ⟨m, le, read⟩ => ⟨m + 1, by omega, read.succ⟩
    simp only [loadSegments]
    refine .ite (fun _ => first rfl) fun _ => .ite (fun _ => rest rfl) fun _ =>
      .ite (fun _ => first rfl) fun _ => .ite (fun _ => first rfl) fun _ =>
      .ite (fun _ => first rfl) fun _ => .ite (fun _ => first (by simp [Locals.uvmalloc, headerReads, reads]))
      fun _ => ?_
    split
    · rename_i l' r seg
      have same : headerReads l'.calls = headerReads (l.call (.readi off sizeofProghdr .ph)).calls := by
        rw [(loadseg_headerReads fuel 0 _).of_next seg]
        simp [Locals.uvmalloc, headerReads, reads]
      exact .ite (fun _ => first same) fun _ => rest same
    · exact ((loadseg_headerReads fuel 0 _).of_bad ‹_›).elim
    · trivial
    · trivial

theorem pushArgs_headerReads {stackbase : BitVec 64} (argv : List (List UInt8)) (sp : BitVec 64)
    (ustack : List (BitVec 64)) (l : Locals) :
    (pushArgs cs env stackbase argv sp ustack l).All
      (fun r => headerReads r.1.calls = headerReads l.calls)
      fun l' => headerReads l'.calls = headerReads l.calls := by
  induction argv generalizing sp ustack l with
  | nil => rfl
  | cons s argv ih =>
    have copied {l' : Locals} {c : Call} (read : headerReads l'.calls = headerReads (l.call c).calls)
        (quiet : headerReads [c] = []) : headerReads l'.calls = headerReads l.calls := by
      simp [read, quiet]
    simp only [pushArgs]
    exact .ite (fun _ => rfl) fun _ => .ite (fun _ => rfl) fun _ =>
      .ite (fun _ => copied rfl rfl) fun _ =>
      (ih _ _ _).imp (fun _ read => copied read rfl) fun _ read => copied read rfl

/-- When `exec` succeeds it has read the `phnum` program headers that the ELF header it read names,
the `i`th from `phoff + 56 * i` modulo `2^32`, whatever the upper bits of `phoff`. -/
theorem exec_header_reads {fuel : Nat} {p p' : Proc} {path : List UInt8}
    {argv : List (List UInt8)} {r : Int} {calls : List Call}
    (ret : exec cs env fuel p path argv = .ret r p' calls) (ok : r ≠ -1) :
    (headerReads calls).map BitVec.toNat =
      headerOffsets (env.elf 3).phoff.toNat (env.elf 3).phnum.toNat := by
  obtain ⟨ip, l₀, l, l', sp₀, ustack, segs, calls₀, -, -, -, pushed, sp, -, -, -, -, -, -, -, rfl⟩ :=
    exec_ok_stages ret ok
  have loop : ReadHeaders [] _ _ l₀ :=
    (loadSegments_headerReads fuel _ _ _ (by simp [headerReads, reads])).of_next segs
  simp only [ReadHeaders, List.nil_append, BitVec.truncate_eq_setWidth, BitVec.toNat_setWidth,
    headerOffsets_mod] at loop
  rw [← loop]
  simp [headerReads_cons_quiet, (pushArgs_headerReads _ _ _ _).of_next pushed, calls₀]

theorem exec_header_reads_far_file :
    ∃ p' calls, exec sampleConsts farFile 2 caller [47, 97] [] = .ret 0 p' calls ∧ (0 : Int) ≠ -1 ∧
      (headerReads calls).map BitVec.toNat = headerOffsets (farFile.elf 3).phoff.toNat (farFile.elf 3).phnum.toNat := by
  obtain ⟨p', calls, ret⟩ : ∃ p' calls, exec sampleConsts farFile 2 caller [47, 97] [] = .ret 0 p' calls :=
    ⟨_, _, rfl⟩
  exact ⟨p', calls, ret, by decide, exec_header_reads ret (by decide)⟩

end

/-- `exec` of the 120-byte file reads only inside it, at the truncated offsets, and returns 0. -/
theorem exec_loads_truncated :
    ∃ p' calls, exec sampleConsts farFile 2 caller [47, 97] [] = .ret 0 p' calls ∧
      120 < farElf.phoff.toNat ∧ 120 < farSegment.off.toNat + farSegment.filesz.toNat ∧
      reads calls = [(0, sizeofElfhdr, .elf), (64, sizeofProghdr, .ph), (0, 120, .page 4096)] ∧
      ∀ read ∈ reads calls, read.1.toNat + read.2.1.toNat ≤ 120 :=
  ⟨_, _, rfl, by decide, by decide, rfl, by decide⟩

end Xv6.Exec
