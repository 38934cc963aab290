import Xv6.Log.Crash

/-!
# Log absorption

`log_write` logs each block once per transaction: its loop finds the block among
`lh.block[0..n)` and stores it back in place, or stops at `n`, where the block is appended.
So between two commits the header lists the blocks passed to `log_write`, each once, in the
order they were first written.
-/

namespace Xv6

/-- The logged blocks `lh.block[0..n)`. -/
def Logheader.blocks (lh : Logheader) : List Nat := (List.range lh.n).map lh.block

end Xv6

namespace Xv6.Log

open Bio

variable {NBUF : Nat} (P : Params)

/-- A list of blocks after one more is written. -/
def addNew (seen : List Nat) (blockno : Nat) : List Nat :=
  if blockno ∈ seen then seen else seen ++ [blockno]

namespace Sys

/-- The block an event passes to `log_write`, if it is a store followed by `log_write`. -/
def written (s : Sys NBUF) : Event NBUF → List Nat
  | .write _ b _ => [(s.cache.bcache.buf b).blockno]
  | _ => []

/-- The blocks passed to `log_write` by the events `es` run from `s`, in order. -/
def logWrites (s : Sys NBUF) : List (Event NBUF) → List Nat
  | [] => []
  | e :: es =>
    match s.step P e with
    | .ok s' => s.written e ++ s'.logWrites es
    | _ => s.written e

end Sys

/-! ### One `log_write` -/

theorem mem_blocks {lh : Logheader} {x : Nat} : x ∈ lh.blocks ↔ ∃ i < lh.n, lh.block i = x := by
  simp [Logheader.blocks]

theorem blocks_extend (lh : Logheader) (x : Nat) :
    (⟨lh.n + 1, Function.update lh.block lh.n x⟩ : Logheader).blocks = lh.blocks ++ [x] := by
  show (List.range (lh.n + 1)).map (Function.update lh.block lh.n x) = _
  rw [List.range_succ, List.map_append, List.map_singleton, Function.update_same,
    List.map_congr_left fun i mem => Function.update_noteq (Nat.ne_of_lt (List.mem_range.mp mem)) _ _]
  rfl

theorem logWrite_header {log log' : Log} {c c' : Cache NBUF} {b : Fin NBUF}
    (wrote : logWrite P log c b = .ok (log', c')) :
    ((∃ i < log.lh.n, log.lh.block i = (c.bcache.buf b).blockno) →
      log'.lh.n = log.lh.n ∧ log'.lh.block = log.lh.block) ∧
    ((∀ i < log.lh.n, log.lh.block i ≠ (c.bcache.buf b).blockno) →
      log'.lh.n = log.lh.n + 1 ∧
        log'.lh.block = Function.update log.lh.block log.lh.n (c.bcache.buf b).blockno) := by
  obtain ⟨-, -, ⟨new, rfl, -⟩ | ⟨old, rfl, -⟩⟩ := logWrite_ok P wrote <;>
    rcases absorb_cases log.lh (c.bcache.buf b).blockno with ⟨below, found⟩ | ⟨atEnd, missing⟩
  · omega
  · exact ⟨fun ⟨i, below, same⟩ => absurd same (missing i below), fun _ => ⟨rfl, rfl⟩⟩
  · have same := Function.update_eq_self (absorb log.lh (c.bcache.buf b).blockno) log.lh.block
    rw [found] at same
    exact ⟨fun _ => ⟨rfl, same⟩, fun missing => absurd found (missing _ below)⟩
  · exact absurd atEnd old

theorem logWrite_blocks {log log' : Log} {c c' : Cache NBUF} {b : Fin NBUF}
    (wrote : logWrite P log c b = .ok (log', c')) :
    log'.lh.blocks = addNew log.lh.blocks (c.bcache.buf b).blockno := by
  obtain ⟨old, new⟩ := logWrite_header P wrote
  by_cases present : ∃ i < log.lh.n, log.lh.block i = (c.bcache.buf b).blockno
  · obtain ⟨n, block⟩ := old present
    rw [addNew, if_pos (mem_blocks.mpr present), Logheader.blocks, n, block]
    rfl
  · obtain ⟨n, block⟩ := new fun i below same => present ⟨i, below, same⟩
    rw [addNew, if_neg (mem_blocks.not.mpr present), ← blocks_extend, ← n, ← block]

/-! ### A run between two commits -/

theorem endOp_lh {log log' : Log} {doCommit : Bool} (ended : endOp log = .ok (log', doCommit)) :
    log'.lh = log.lh := by
  simp only [endOp] at ended
  split at ended
  · cases ended
  · split at ended <;> cases ended <;> rfl

theorem step_blocks {s s' : Sys NBUF} {e : Event NBUF} (quiet : e.ofCommit = false)
    (step : s.step P e = .ok s') : s'.log.lh.blocks = (s.written e).foldl addNew s.log.lh.blocks := by
  cases e with
  | beginOp pid =>
    simp only [Sys.step] at step
    split at step <;> cases step
    next log admitted => cases beginOp_some P admitted; rfl
    · rfl
  | endOp pid =>
    obtain ⟨⟨log, doCommit⟩, ended, step⟩ := Ends.bind_eq_ok.mp step
    cases step
    exact congrArg Logheader.blocks (endOp_lh ended)
  | bread pid dev blockno =>
    obtain ⟨_, _, step⟩ := Ends.bind_eq_ok.mp step
    cases step
    rfl
  | write pid b data =>
    obtain ⟨⟨log, c⟩, wrote, step⟩ := Ends.bind_eq_ok.mp step
    cases step
    rw [logWrite_blocks P wrote, Cache.modify_blockno]
    rfl
  | brelse pid b => cases step; rfl
  | commit | recover | reboot => cases quiet

theorem runs_blocks {s s' : Sys NBUF} {es : List (Event NBUF)} (quiet : ∀ e ∈ es, e.ofCommit = false)
    (ran : s.runs P es = .ok s') : s'.log.lh.blocks = (s.logWrites P es).foldl addNew s.log.lh.blocks := by
  induction es generalizing s with
  | nil => cases ran; rfl
  | cons e es ih =>
    obtain ⟨s₁, stepped, ran⟩ := Ends.bind_eq_ok.mp ran
    rw [Sys.logWrites, stepped, List.foldl_append, ← step_blocks P (quiet e (List.mem_cons_self _ _)) stepped]
    exact ih (fun e mem => quiet e (List.mem_cons_of_mem _ mem)) ran

/-! ### The distinct blocks in order of first write -/

theorem mem_foldl_addNew {seen ws : List Nat} {x : Nat} :
    x ∈ ws.foldl addNew seen ↔ x ∈ seen ∨ x ∈ ws := by
  induction ws generalizing seen with
  | nil => simp
  | cons w ws ih =>
    rw [List.foldl_cons, ih, addNew, List.mem_cons]
    split
    next old =>
      refine ⟨fun found => found.imp_right .inr, ?_⟩
      rintro (found | rfl | found)
      exacts [.inl found, .inl old, .inr found]
    · simp [or_assoc]

theorem foldl_addNew_nodup {seen : List Nat} (ws : List Nat) (nodup : seen.Nodup) :
    (ws.foldl addNew seen).Nodup := by
  induction ws generalizing seen with
  | nil => exact nodup
  | cons w ws ih =>
    refine ih ?_
    rw [addNew]
    split
    · exact nodup
    · exact nodup.append (List.nodup_singleton w) (by simpa)

theorem foldl_addNew_pairwise (ws : List Nat) :
    (ws.foldl addNew []).Pairwise fun x y => ws.indexOf x < ws.indexOf y := by
  induction ws using List.reverseRecOn with
  | nil => exact List.Pairwise.nil
  | append_singleton ws w ih =>
    have earlier {x : Nat} (mem : x ∈ ws.foldl addNew []) : (ws ++ [w]).indexOf x = ws.indexOf x :=
      List.indexOf_append_of_mem (by simpa using mem_foldl_addNew.mp mem)
    rw [List.foldl_append, List.foldl_cons, List.foldl_nil, addNew]
    split
    · exact ih.imp_of_mem fun mx my lt => by rwa [earlier mx, earlier my]
    next fresh =>
      have unseen : w ∉ ws := fun mem => fresh (mem_foldl_addNew.mpr (.inr mem))
      refine List.pairwise_append.mpr ⟨ih.imp_of_mem fun mx my lt => by rwa [earlier mx, earlier my],
        List.pairwise_singleton _ _, fun x mx y my => ?_⟩
      rw [List.mem_singleton.mp my, earlier mx, List.indexOf_append_of_not_mem unseen,
        List.indexOf_cons_self]
      exact Nat.lt_of_lt_of_le (List.indexOf_lt_length.mpr (by simpa using mem_foldl_addNew.mp mx))
        (Nat.le_add_right _ _)

/-- Between two commits the header lists each block passed to `log_write` once, in first-write order. -/
theorem log_absorption {s₀ s : Sys NBUF} {es : List (Event NBUF)} (empty : s₀.log.lh.n = 0)
    (quiet : ∀ e ∈ es, e.ofCommit = false) (ran : s₀.runs P es = .ok s) :
    s.log.lh.blocks.Nodup ∧ (∀ x, x ∈ s.log.lh.blocks ↔ x ∈ s₀.logWrites P es) ∧
    s.log.lh.blocks.Pairwise (fun x y => (s₀.logWrites P es).indexOf x < (s₀.logWrites P es).indexOf y) ∧
    ∀ (log log' : Log) (c c' : Cache NBUF) (b : Fin NBUF), logWrite P log c b = .ok (log', c') →
      ((∃ i < log.lh.n, log.lh.block i = (c.bcache.buf b).blockno) →
        log'.lh.n = log.lh.n ∧ log'.lh.block = log.lh.block) ∧
      ((∀ i < log.lh.n, log.lh.block i ≠ (c.bcache.buf b).blockno) →
        log'.lh.n = log.lh.n + 1 ∧
          log'.lh.block = Function.update log.lh.block log.lh.n (c.bcache.buf b).blockno) := by
  have blocks := runs_blocks P quiet ran
  have none : s₀.log.lh.blocks = [] := by simp [Logheader.blocks, empty]
  rw [none] at blocks
  refine ⟨blocks ▸ foldl_addNew_nodup _ List.nodup_nil, fun x => ?_, blocks ▸ foldl_addNew_pairwise _,
    fun _ _ _ _ _ wrote => logWrite_header P wrote⟩
  rw [blocks, mem_foldl_addNew]
  simp

/-- A zeroed disk after boot and a recovery that found nothing logged. -/
def recovered : Sys 3 :=
  ((Sys.boot smallLog (fun _ _ => 0) 1).runs smallLog [.recover, .recover, .recover, .recover]).getD
    (Sys.boot smallLog (fun _ _ => 0) 1)

/-- Process 1 logs block 10 and process 2 block 11; then process 1 stores into block 10 again. -/
def twoOps : List (Event 3) :=
  [.beginOp 1, .bread 1 1 10, .write 1 1 fun _ => 7, .beginOp 2, .bread 2 1 11, .write 2 2 fun _ => 8,
    .write 1 1 fun _ => 9, .brelse 1 1]

def absorbed : Sys 3 := (recovered.runs smallLog twoOps).getD recovered

theorem log_absorption_rewrite :
    recovered.log.lh.n = 0 ∧ (∀ e ∈ twoOps, e.ofCommit = false) ∧
    recovered.runs smallLog twoOps = .ok absorbed ∧
    (absorbed.log.lh.blocks.Nodup ∧
    (∀ x, x ∈ absorbed.log.lh.blocks ↔ x ∈ recovered.logWrites smallLog twoOps) ∧
    absorbed.log.lh.blocks.Pairwise (fun x y => (recovered.logWrites smallLog twoOps).indexOf x <
      (recovered.logWrites smallLog twoOps).indexOf y) ∧
    ∀ (log log' : Log) (c c' : Cache 3) (b : Fin 3), logWrite smallLog log c b = .ok (log', c') →
      ((∃ i < log.lh.n, log.lh.block i = (c.bcache.buf b).blockno) →
        log'.lh.n = log.lh.n ∧ log'.lh.block = log.lh.block) ∧
      ((∀ i < log.lh.n, log.lh.block i ≠ (c.bcache.buf b).blockno) →
        log'.lh.n = log.lh.n + 1 ∧
          log'.lh.block = Function.update log.lh.block log.lh.n (c.bcache.buf b).blockno)) :=
  ⟨rfl, by decide, rfl, log_absorption smallLog rfl (by decide) (by rfl)⟩

end Xv6.Log
