import Xv6.Log.Crash
import Mathlib.Data.Fintype.Card

/-!
# A commit and the buffers it needs

`commit()` reads every block it writes with `bread`: the log block of each pass of `write_log`
and of `install_trans`, and the header block of both `write_head`s. `log_write` pins each block
of the transaction in the cache, and no operation is open while the commit runs, so the
buffers in use are exactly the pinned ones. `log_commit_completes` shows that a commit in
progress runs to its end, with no panic, whenever fewer blocks are logged than there are
buffers; `log_commit_out_of_buffers` that when there are as many or more, `write_log`'s first
read of a log block panics with "bget: no buffers". `param.h` (not among the sources) makes
`NBUF` and `LOGSIZE` both `3 * MAXOPBLOCKS`, so a transaction that fills the log fills the cache.
-/

namespace Xv6.Bio

variable {NBUF : Nat}

theorem Bcache.Lined.bread_of_room {bc : Bcache NBUF} (lined : bc.Lined) (disk : Disk) (dev blockno : Nat)
    (room : (∃ x, bc.isBlock dev blockno x) ∨ ∃ x, (bc.buf x).refcnt = 0) :
    ∃ b bc', bread bc disk dev blockno = .ok (b, bc') := by
  have got : ∃ b bc', bget bc dev blockno = .ok (b, bc') := by
    rw [lined.bget_eq]
    cases found : bc.order.find? (bc.isBlock dev blockno) with
    | some b => exact ⟨_, _, rfl⟩
    | none =>
      cases free : bc.order.reverse.find? bc.isFree with
      | some b => exact ⟨_, _, rfl⟩
      | none =>
        exfalso
        rcases room with ⟨x, isBlock⟩ | ⟨x, zero⟩
        · exact List.find?_eq_none.mp found x (lined.mem x) isBlock
        · exact List.find?_eq_none.mp free x (List.mem_reverse.mpr (lined.mem x)) (by simp [Bcache.isFree, zero])
  obtain ⟨b, bc', got⟩ := got
  simp only [bread, got, Ends.ok_bind]
  split <;> exact ⟨_, _, rfl⟩

theorem Cache.bread_of_room {c : Cache NBUF} (lined : c.bcache.Lined) (pid dev blockno : Nat)
    (room : (∃ x, c.bcache.isBlock dev blockno x) ∨ ∃ x, (c.bcache.buf x).refcnt = 0) :
    ∃ b c', c.bread pid dev blockno = .ok (b, c') := by
  obtain ⟨b, bc', got⟩ := lined.bread_of_room c.disk dev blockno room
  exact ⟨b, _, by simp only [Cache.bread, got, Ends.ok_bind]; rfl⟩

theorem Cache.bread_of_full {c : Cache NBUF} (lined : c.bcache.Lined) (pid dev blockno : Nat)
    (absent : ∀ x, c.bcache.isBlock dev blockno x = false) (taken : ∀ x, 0 < (c.bcache.buf x).refcnt) :
    c.bread pid dev blockno = .panic "bget: no buffers" := by
  have found : c.bcache.order.find? (c.bcache.isBlock dev blockno) = none :=
    List.find?_eq_none.mpr fun x _ => by simp [absent x]
  have free : c.bcache.order.reverse.find? c.bcache.isFree = none :=
    List.find?_eq_none.mpr fun x _ => by simp [Bcache.isFree, (taken x).ne']
  simp only [Cache.bread, Bio.bread, lined.bget_eq, found, free, Ends.panic_bind]

end Xv6.Bio

namespace Xv6.Log

open Bio

variable {NBUF : Nat} {P : Params} {s s' : Sys NBUF}

/-! ### The buffers a stage reads -/

theorem Sys.pending_length (s : Sys NBUF) : s.pending.length ≤ s.log.lh.n := by
  unfold Sys.pending; split <;> simp

theorem Logged.free (logged : Logged P s) (coord : Coordinated P s) (committing : s.commit.isSome)
    (spare : s.log.lh.n < NBUF) : ∃ x, (s.cache.bcache.buf x).refcnt = 0 := by
  have idle := logged.idle (coord.quiet committing)
  have few : s.cache.pins.length < NBUF := by
    have same := logged.pins.length_eq
    rw [List.length_map] at same
    have := s.pending_length
    omega
  by_contra busy
  push_neg at busy
  have all : Finset.univ ⊆ s.cache.pins.toFinset := fun x _ => by
    have counted := logged.sound.coherent.counted x
    rw [idle, List.countP_nil, Nat.zero_add] at counted
    exact List.mem_toFinset.mpr (List.count_pos_iff.mp (counted ▸ Nat.pos_of_ne_zero (busy x)))
  have := (Finset.card_le_card all).trans (List.toFinset_card_le _)
  rw [Finset.card_univ, Fintype.card_fin] at this
  omega

theorem Logged.cached (logged : Logged P s) (recovery : s.recovery = none) {i : Nat}
    (done : s.installed ≤ i) (below : i < s.log.lh.n) :
    ∃ x, 0 < (s.cache.bcache.buf x).refcnt ∧ s.cache.bcache.isBlock s.log.dev (s.log.lh.block i) x := by
  obtain ⟨x, pinned, block⟩ := logged.pinned_of_pending (Sys.mem_pending recovery done below)
  have pos := logged.sound.coherent.pos_of_pinned pinned
  exact ⟨x, pos, by simp [Bcache.isBlock, (logged.sound.counted pos).2.1, block]⟩

variable {log : Log} {pid tail : Nat} {c : Cache NBUF}

theorem writeHead_ok (lined : c.bcache.Lined) (free : ∃ x, (c.bcache.buf x).refcnt = 0) :
    ∃ c', writeHead log pid c = .ok c' := by
  obtain ⟨b, c₁, got⟩ := Cache.bread_of_room lined pid log.dev log.start (.inr free)
  exact ⟨_, by simp only [writeHead, got, Ends.ok_bind, Ends.pure_eq]; rfl⟩

theorem bread_twice_ok (sound : c.Sound log.dev) (free : ∃ x, (c.bcache.buf x).refcnt = 0) (pid first second : Nat)
    (cached : ∃ x, 0 < (c.bcache.buf x).refcnt ∧ c.bcache.isBlock log.dev second x) :
    ∃ b₁ c₁ b₂ c₂, c.bread pid log.dev first = .ok (b₁, c₁) ∧ c₁.bread pid log.dev second = .ok (b₂, c₂) := by
  obtain ⟨b₁, c₁, got₁⟩ := Cache.bread_of_room sound.coherent.lined pid log.dev first (.inr free)
  obtain ⟨sound₁, -, -, -, -, -, keeps, -⟩ := sound.bread got₁
  obtain ⟨x, pos, isBlock⟩ := cached
  obtain ⟨b₂, c₂, got₂⟩ := Cache.bread_of_room sound₁.coherent.lined pid log.dev second
    (.inl ⟨x, by simpa [Bcache.isBlock, (keeps x pos).1, (keeps x pos).2] using isBlock⟩)
  exact ⟨b₁, c₁, b₂, c₂, got₁, got₂⟩

theorem writeLog_ok (sound : c.Sound log.dev) (free : ∃ x, (c.bcache.buf x).refcnt = 0)
    (cached : ∃ x, 0 < (c.bcache.buf x).refcnt ∧ c.bcache.isBlock log.dev (log.lh.block tail) x) :
    ∃ c', writeLog log pid tail c = .ok c' := by
  obtain ⟨_, _, _, _, got₁, got₂⟩ := bread_twice_ok sound free pid (log.start + tail + 1) (log.lh.block tail) cached
  exact ⟨_, by simp only [writeLog, got₁, got₂, Ends.ok_bind, Ends.pure_eq]; rfl⟩

theorem installTrans_ok {recovering : Bool} (sound : c.Sound log.dev) (free : ∃ x, (c.bcache.buf x).refcnt = 0)
    (cached : ∃ x, 0 < (c.bcache.buf x).refcnt ∧ c.bcache.isBlock log.dev (log.lh.block tail) x) :
    ∃ c', installTrans log recovering pid tail c = .ok c' := by
  obtain ⟨_, _, _, _, got₁, got₂⟩ := bread_twice_ok sound free pid (log.start + tail + 1) (log.lh.block tail) cached
  exact ⟨_, by simp only [installTrans, got₁, got₂, Ends.ok_bind, Ends.pure_eq]; rfl⟩

/-! ### A commit runs to its end -/

/-- A bound on the steps of `commit()` left at `stage` with `n` blocks logged, exact but at the
`start` of an empty commit: each stage's step lowers it, `finish` last. -/
def Stage.rank (n : Nat) : Stage → Nat
  | .start => 2 * n + 6
  | .writeLog tail => n - tail + n + 5
  | .writeHead => n + 4
  | .install tail => n - tail + 3
  | .clear => 2
  | .finish => 1

/-- The rank of the commit in progress, `0` when none is. -/
def Sys.commitRank (s : Sys NBUF) : Nat :=
  match s.commit with
  | some r => r.stage.rank s.log.lh.n
  | none => 0

theorem Reachable.commit_step (reach : Reachable P s) {r : Run} (running : s.commit = some r)
    (spare : s.log.lh.n < NBUF) :
    ∃ s', s.step P .commit = .ok s' ∧ s'.commitRank < s.commitRank ∧ s'.log.lh.n ≤ s.log.lh.n ∧
      s'.ops = s.ops ∧ s'.recovery = s.recovery := by
  have logged := logged_reachable P reach
  have coord := coordinated_reachable P reach
  have recovery := coord.recovery_none (by simp [running])
  have free := logged.free coord (by simp [running]) spare
  obtain ⟨pid, stage⟩ := r
  have rank : s.commitRank = stage.rank s.log.lh.n := by simp [Sys.commitRank, running]
  simp only [Sys.step, running, rank]
  cases stage with
  | start => exact ⟨_, rfl, by simp only [Sys.commitRank]; split <;> simp only [Stage.rank] <;> omega, le_rfl, rfl, rfl⟩
  | writeLog tail =>
    by_cases below : tail < s.log.lh.n
    · obtain ⟨c, ok⟩ : ∃ c, writeLog s.log pid tail s.cache = .ok c := writeLog_ok logged.sound free
        (logged.cached recovery (by simp [Sys.installed, running]) below)
      refine ⟨_, by simp only [Sys.commitStep, if_pos below, ok, Ends.ok_bind, Ends.pure_eq]; rfl, ?_⟩
      exact ⟨by simp only [Sys.commitRank, Stage.rank]; omega, le_rfl, rfl, rfl⟩
    · refine ⟨_, by simp only [Sys.commitStep, if_neg below]; rfl, ?_⟩
      exact ⟨by simp only [Sys.commitRank, Stage.rank]; omega, le_rfl, rfl, rfl⟩
  | writeHead =>
    obtain ⟨c, ok⟩ : ∃ c, writeHead s.log pid s.cache = .ok c := writeHead_ok coord.lined free
    refine ⟨_, by simp only [Sys.commitStep, ok, Ends.ok_bind, Ends.pure_eq]; rfl, ?_⟩
    exact ⟨by simp only [Sys.commitRank, Stage.rank]; omega, le_rfl, rfl, rfl⟩
  | install tail =>
    by_cases below : tail < s.log.lh.n
    · obtain ⟨c, ok⟩ : ∃ c, installTrans s.log false pid tail s.cache = .ok c := installTrans_ok logged.sound free
        (logged.cached recovery (by simp [Sys.installed, running]) below)
      refine ⟨_, by simp only [Sys.commitStep, if_pos below, ok, Ends.ok_bind, Ends.pure_eq]; rfl, ?_⟩
      exact ⟨by simp only [Sys.commitRank, Stage.rank]; omega, le_rfl, rfl, rfl⟩
    · refine ⟨_, by simp only [Sys.commitStep, if_neg below]; rfl, ?_⟩
      exact ⟨by simp only [Sys.commitRank, Stage.rank]; omega, le_rfl, rfl, rfl⟩
  | clear =>
    -- `write_head` of the emptied header, the one stage that changes the log
    obtain ⟨c, ok⟩ : ∃ c, writeHead { s.log with lh := { s.log.lh with n := 0 } } pid s.cache = .ok c :=
      writeHead_ok coord.lined free
    refine ⟨_, by simp only [Sys.commitStep, ok, Ends.ok_bind, Ends.pure_eq]; rfl, ?_⟩
    exact ⟨by simp only [Sys.commitRank, Stage.rank]; omega, Nat.zero_le _, rfl, rfl⟩
  | finish => exact ⟨_, rfl, by simp only [Sys.commitRank, Stage.rank]; omega, le_rfl, rfl, rfl⟩

theorem Reachable.commit_ends (reach : Reachable P s) (spare : s.log.lh.n < NBUF) :
    ∃ k s', s.runs P (List.replicate k .commit) = .ok s' ∧ Reachable P s' ∧ s'.commit = none ∧
      s'.ops = s.ops ∧ s'.recovery = s.recovery := by
  obtain ⟨m, h⟩ : ∃ m, s.commitRank = m := ⟨_, rfl⟩
  induction m using Nat.strong_induction_on generalizing s with
  | _ m ih =>
    cases running : s.commit with
    | none => exact ⟨0, s, rfl, reach, running, rfl, rfl⟩
    | some r =>
      obtain ⟨s₁, stepped, lower, shrinks, ops, recovery⟩ := reach.commit_step running spare
      obtain ⟨k, s', ran, reach', ended, ops', recovery'⟩ :=
        ih _ (h ▸ lower) (.step .commit reach trivial stepped) (by omega) rfl
      exact ⟨k + 1, s', by rw [List.replicate_succ, Sys.runs, stepped, Ends.ok_bind, ran], reach', ended,
        ops'.trans ops, recovery'.trans recovery⟩

/-- With every buffer pinned by the transaction, `write_log`'s read of a log block panics. -/
theorem log_commit_out_of_buffers (reach : Reachable P s) (running : s.commit = some ⟨pid, .writeLog tail⟩)
    (below : tail < s.log.lh.n) (full : NBUF ≤ s.log.lh.n)
    (apart : ∀ i < s.log.lh.n, s.log.lh.block i ≠ s.log.start + tail + 1) :
    s.step P .commit = .panic "bget: no buffers" := by
  have logged := logged_reachable P reach
  have coord := coordinated_reachable P reach
  have recovery := coord.recovery_none (by simp [running])
  have pending : s.pending = (List.range s.log.lh.n).map s.log.lh.block := by
    simp [Sys.pending, Sys.installed, running, recovery, List.range_eq_range']
  have pinned : ∀ x, x ∈ s.cache.pins := by
    have nodup : s.cache.pins.Nodup := (logged.pins.nodup_iff.mpr logged.distinct).of_map _
    have length := logged.pins.length_eq
    rw [List.length_map, pending, List.length_map, List.length_range] at length
    have univ := Finset.eq_univ_of_card s.cache.pins.toFinset (le_antisymm (Finset.card_le_univ _)
      (by rw [List.toFinset_card_of_nodup nodup, Fintype.card_fin]; omega))
    exact fun x => List.mem_toFinset.mp (univ ▸ Finset.mem_univ x)
  have absent : ∀ x, s.cache.bcache.isBlock s.log.dev (s.log.start + tail + 1) x = false := fun x => by
    obtain ⟨i, inside, block⟩ : ∃ i < s.log.lh.n, s.log.lh.block i = (s.cache.bcache.buf x).blockno := by
      simpa [pending] using logged.pins.mem_iff.mp (List.mem_map_of_mem _ (pinned x))
    simp [Bcache.isBlock, ← block, apart i inside]
  simp only [Sys.step, running, Sys.commitStep, if_pos below, writeLog, Ends.panic_bind,
    Cache.bread_of_full coord.lined pid _ _ absent fun x => logged.sound.coherent.pos_of_pinned (pinned x)]

/-- The three operations of `fullLog` release their buffers and end. -/
def endThree : List (Event 3) := [.brelse 1 1, .brelse 2 2, .brelse 3 0, .endOp 1, .endOp 2, .endOp 3, .commit]

def writingLog : Sys 3 := (fullLog.runs smallLog endThree).getD fullLog

theorem writingLog_reachable : Reachable smallLog writingLog :=
  @Reachable.runs 3 smallLog fullLog writingLog endThree fullLog_reachable (by decide) rfl

theorem log_commit_out_of_buffers_full_log :
    Reachable smallLog writingLog ∧ writingLog.commit = some ⟨3, .writeLog 0⟩ ∧ 0 < writingLog.log.lh.n ∧
    3 ≤ writingLog.log.lh.n ∧ (∀ i < writingLog.log.lh.n, writingLog.log.lh.block i ≠ writingLog.log.start + 0 + 1) ∧
    writingLog.step smallLog .commit = .panic "bget: no buffers" :=
  ⟨writingLog_reachable, rfl, by decide, by decide, by decide,
    log_commit_out_of_buffers writingLog_reachable rfl (by decide) (by decide) (by decide)⟩

end Xv6.Log
