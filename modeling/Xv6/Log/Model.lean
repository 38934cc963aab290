import Xv6.Bio.View

/-!
# The log

`log.c` over the buffer cache of `Xv6.Bio`. `begin_op`, `end_op` and `log_write` are each one
step under `log.lock`. `commit()` and `recover_from_log()` run without the lock, as a process
going through `Stage`s: each stage is one pass of a loop or one `write_head`, so each writes
at most one block, and a crash between two stages is a crash after any prefix of their block
writes. A `reboot` keeps only the disk: the kernel starts again with `binit` and `initlog`,
which runs `recover_from_log()`.

Besides the code's own state, `Sys` keeps as ghost state the operations between `begin_op`
and `end_op`, with the blocks each has passed to `log_write`.
-/

namespace Xv6

open Bio

/-- `struct logheader`; only `block[0..n)` is ever read. -/
structure Logheader where
  n : Nat
  block : Nat → Nat

/-- `struct log`, without its lock. -/
structure Log where
  start : Nat
  size : Nat
  outstanding : Int
  committing : Bool
  dev : Nat
  lh : Logheader

namespace Log

/-- The constants the log is built with. -/
structure Params where
  LOGSIZE : Nat
  MAXOPBLOCKS : Nat
  dev : Nat
  logstart : Nat
  nlog : Nat

/-- `write_head`'s stores into the header block seen as `struct logheader`. -/
def writeHeader (lh : Logheader) (data : Block) : Block := fun w =>
  if w = 0 then lh.n else if w ≤ lh.n then lh.block (w - 1) else data w

/-- `read_head`'s loads from the header block. -/
def readHeader (data : Block) (lh : Logheader) : Logheader :=
  { n := data 0, block := fun i => if i < data 0 then data (i + 1) else lh.block i }

variable {NBUF : Nat}

/-- `read_head`, by process `pid`. -/
def readHead (log : Log) (pid : Nat) (c : Cache NBUF) : Ends (Logheader × Cache NBUF) := do
  let (buf, c) ← c.bread pid log.dev log.start
  pure (readHeader (c.bcache.buf buf).data log.lh, c.brelse pid buf)

/-- `write_head`, by process `pid`. -/
def writeHead (log : Log) (pid : Nat) (c : Cache NBUF) : Ends (Cache NBUF) := do
  let (buf, c) ← c.bread pid log.dev log.start
  let c := (c.modify buf (writeHeader log.lh (c.bcache.buf buf).data)).bwrite buf
  pure (c.brelse pid buf)

/-- One pass of `write_log`'s loop. -/
def writeLog (log : Log) (pid tail : Nat) (c : Cache NBUF) : Ends (Cache NBUF) := do
  let (toBuf, c) ← c.bread pid log.dev (log.start + tail + 1)
  let (fromBuf, c) ← c.bread pid log.dev (log.lh.block tail)
  let c := (c.modify toBuf (c.bcache.buf fromBuf).data).bwrite toBuf
  pure ((c.brelse pid fromBuf).brelse pid toBuf)

/-- One pass of `install_trans`'s loop. -/
def installTrans (log : Log) (recovering : Bool) (pid tail : Nat) (c : Cache NBUF) :
    Ends (Cache NBUF) := do
  let (lbuf, c) ← c.bread pid log.dev (log.start + tail + 1)
  let (dbuf, c) ← c.bread pid log.dev (log.lh.block tail)
  let c := (c.modify dbuf (c.bcache.buf lbuf).data).bwrite dbuf
  let c := if recovering then c else c.bunpin dbuf
  pure ((c.brelse pid lbuf).brelse pid dbuf)

/-- `begin_op`'s test, `none` where it sleeps. -/
def beginOp (P : Params) (log : Log) : Option Log :=
  if log.committing then none
  else if (log.lh.n : Int) + (log.outstanding + 1) * P.MAXOPBLOCKS > P.LOGSIZE then none
  else some { log with outstanding := log.outstanding + 1 }

/-- `end_op` up to `commit()`: the log, and `do_commit`. -/
def endOp (log : Log) : Ends (Log × Bool) :=
  let log := { log with outstanding := log.outstanding - 1 }
  if log.committing then .panic "log.committing"
  else if log.outstanding = 0 then .ok ({ log with committing := true }, true)
  else .ok (log, false)

/-- `log_write`'s search: the first `i < n` with `block[i] == blockno`, else `n`. -/
def absorb (lh : Logheader) (blockno : Nat) : Nat :=
  ((List.range lh.n).find? fun i => lh.block i = blockno).getD lh.n

/-- `log_write(b)`: the checks, the search for `b`'s block among those logged, and for a new block a
pin and one more entry. -/
def logWrite (P : Params) (log : Log) (c : Cache NBUF) (b : Fin NBUF) : Ends (Log × Cache NBUF) :=
  if log.lh.n ≥ P.LOGSIZE ∨ log.lh.n ≥ log.size - 1 then .panic "too big a transaction"
  else if log.outstanding < 1 then .panic "log_write outside of trans"
  else
    let blockno := (c.bcache.buf b).blockno
    let i := absorb log.lh blockno
    let lh := { log.lh with block := Function.update log.lh.block i blockno }
    if i = log.lh.n then .ok ({ log with lh := { lh with n := lh.n + 1 } }, c.bpin b)
    else .ok ({ log with lh }, c)

/-! ### The system -/

/-- Where `commit()` or `recover_from_log()` has got to. -/
inductive Stage
  | start
  | writeLog (tail : Nat)
  | writeHead
  | install (tail : Nat)
  | clear
  | finish
  deriving DecidableEq

/-- The process running `commit()` or `recover_from_log()`, and where it is. -/
structure Run where
  pid : Nat
  stage : Stage
  deriving DecidableEq

/-- An operation between `begin_op` and `end_op`, and the blocks it has passed to `log_write`. -/
structure Op where
  pid : Nat
  written : List Nat

/-- `o` after `log_write` of `blockno`. -/
def Op.note (o : Op) (blockno : Nat) : Op :=
  { o with written := if blockno ∈ o.written then o.written else o.written ++ [blockno] }

/-- The log, the cache and disk under it, the operations open, the process running `commit()`, and
the one running `recover_from_log()` after a boot. -/
structure Sys (NBUF : Nat) where
  log : Log
  cache : Cache NBUF
  ops : List Op
  commit : Option Run
  recovery : Option Run

/-- What a process does: the calls of `log.c` and the file system's, a commit step, a crash. -/
inductive Event (NBUF : Nat)
  | beginOp (pid : Nat)
  | endOp (pid : Nat)
  | commit
  | recover
  | bread (pid dev blockno : Nat)
  | write (pid : Nat) (b : Fin NBUF) (data : Block)
  | brelse (pid : Nat) (b : Fin NBUF)
  | reboot (pid : Nat)

namespace Sys

variable (P : Params)

/-- Power on: the zeroed `log` of the `.bss`, `binit` over the disk, and `initlog` about to run
`recover_from_log()` in process `pid`. -/
def boot (disk : Disk) (pid : Nat) : Sys NBUF where
  log := ⟨P.logstart, P.nlog, 0, false, P.dev, ⟨0, fun _ => 0⟩⟩
  cache := .init disk
  ops := []
  commit := none
  recovery := some ⟨pid, .start⟩

/-- One stage of `commit()`, and last `end_op`'s reset of `log.committing`. -/
def commitStep (s : Sys NBUF) (pid : Nat) : Stage → Ends (Sys NBUF)
  | .start => .ok { s with commit := some ⟨pid, if 0 < s.log.lh.n then .writeLog 0 else .finish⟩ }
  | .writeLog tail =>
    if tail < s.log.lh.n then do
      let c ← writeLog s.log pid tail s.cache
      pure { s with cache := c, commit := some ⟨pid, .writeLog (tail + 1)⟩ }
    else .ok { s with commit := some ⟨pid, .writeHead⟩ }
  | .writeHead => do
    let c ← writeHead s.log pid s.cache
    pure { s with cache := c, commit := some ⟨pid, .install 0⟩ }
  | .install tail =>
    if tail < s.log.lh.n then do
      let c ← installTrans s.log false pid tail s.cache
      pure { s with cache := c, commit := some ⟨pid, .install (tail + 1)⟩ }
    else .ok { s with commit := some ⟨pid, .clear⟩ }
  | .clear => do
    let log := { s.log with lh := { s.log.lh with n := 0 } }
    let c ← writeHead log pid s.cache
    pure { s with log, cache := c, commit := some ⟨pid, .finish⟩ }
  | .finish => .ok { s with log := { s.log with committing := false }, commit := none }

/-- One stage of `recover_from_log()`. -/
def recoverStep (s : Sys NBUF) (pid : Nat) : Stage → Ends (Sys NBUF)
  | .start => do
    let (lh, c) ← readHead s.log pid s.cache
    pure { s with log := { s.log with lh }, cache := c, recovery := some ⟨pid, .install 0⟩ }
  | .install tail =>
    if tail < s.log.lh.n then do
      let c ← installTrans s.log true pid tail s.cache
      pure { s with cache := c, recovery := some ⟨pid, .install (tail + 1)⟩ }
    else .ok { s with recovery := some ⟨pid, .clear⟩ }
  | .clear => do
    let log := { s.log with lh := { s.log.lh with n := 0 } }
    let c ← writeHead log pid s.cache
    pure { s with log, cache := c, recovery := some ⟨pid, .finish⟩ }
  | .finish => .ok { s with recovery := none }
  | .writeLog _ | .writeHead => .stuck

/-- One event. -/
def step (s : Sys NBUF) : Event NBUF → Ends (Sys NBUF)
  | .beginOp pid =>
    match beginOp P s.log with
    | some log => .ok { s with log, ops := s.ops ++ [⟨pid, []⟩] }
    | none => .ok s
  | .endOp pid => do
    let (log, doCommit) ← endOp s.log
    pure { s with
      log
      ops := s.ops.eraseP (·.pid = pid)
      commit := if doCommit then some ⟨pid, .start⟩ else s.commit }
  | .commit =>
    match s.commit with
    | some r => s.commitStep r.pid r.stage
    | none => .stuck
  | .recover =>
    match s.recovery with
    | some r => s.recoverStep r.pid r.stage
    | none => .stuck
  | .bread pid dev blockno => do
    let (_, c) ← s.cache.bread pid dev blockno
    pure { s with cache := c }
  | .write pid b data => do
    let (log, c) ← logWrite P s.log (s.cache.modify b data) b
    pure { s with
      log
      cache := c
      ops := s.ops.map fun o => if o.pid = pid then o.note (s.cache.bcache.buf b).blockno else o }
  | .brelse pid b => .ok { s with cache := s.cache.brelse pid b }
  | .reboot pid => .ok (boot P s.cache.disk pid)

/-- Events in turn, up to the first that does not return. -/
def runs (s : Sys NBUF) : List (Event NBUF) → Ends (Sys NBUF)
  | [] => .ok s
  | e :: es => s.step P e >>= fun s => s.runs es

/-- `pid` is between its `begin_op` and its `end_op`. -/
def InOp (s : Sys NBUF) (pid : Nat) : Prop := ∃ o ∈ s.ops, o.pid = pid

/-- The file system's side of the contract. -/
def Allowed (s : Sys NBUF) : Event NBUF → Prop
  | .beginOp pid => s.recovery = none ∧ ¬s.InOp pid
  | .endOp pid => s.InOp pid ∧ ∀ h ∈ s.cache.holds, h.pid ≠ pid
  | .commit | .recover | .reboot _ => True
  | .bread pid dev _ => s.InOp pid ∧ dev = s.log.dev
  | .write pid b _ | .brelse pid b => s.InOp pid ∧ s.cache.Holding pid b

instance (s : Sys NBUF) (pid : Nat) : Decidable (s.InOp pid) := inferInstanceAs (Decidable (∃ _ ∈ _, _))

instance (s : Sys NBUF) : (e : Event NBUF) → Decidable (s.Allowed e)
  | .beginOp _ => inferInstanceAs (Decidable (_ ∧ _))
  | .endOp _ => inferInstanceAs (Decidable (_ ∧ ∀ _ ∈ _, _))
  | .commit | .recover | .reboot _ => inferInstanceAs (Decidable True)
  | .bread .. => inferInstanceAs (Decidable (_ ∧ _))
  | .write .. | .brelse .. => inferInstanceAs (Decidable (_ ∧ ∃ _ ∈ _, _))

/-- Every event of `es` is allowed where it is taken, up to the first that does not return. -/
def admits (s : Sys NBUF) : List (Event NBUF) → Bool
  | [] => true
  | e :: es => decide (s.Allowed e) &&
    match s.step P e with
    | .ok s' => s'.admits es
    | _ => true

end Sys

inductive Reachable (P : Params) : Sys NBUF → Prop
  | boot (disk : Disk) (pid : Nat) : Reachable P (.boot P disk pid)
  | step {s s' : Sys NBUF} (e : Event NBUF) : Reachable P s → s.Allowed e → s.step P e = .ok s' →
      Reachable P s'

theorem Reachable.runs {P : Params} {s s' : Sys NBUF} {es : List (Event NBUF)} (reach : Reachable P s)
    (admitted : s.admits P es = true) (ran : s.runs P es = .ok s') : Reachable P s' := by
  induction es generalizing s with
  | nil => cases ran; exact reach
  | cons e es ih =>
    obtain ⟨s₁, stepped, ran⟩ := Ends.bind_eq_ok.mp ran
    simp only [Sys.admits, Bool.and_eq_true, decide_eq_true_eq, stepped] at admitted
    exact ih (.step e reach admitted.1 stepped) admitted.2 ran

end Xv6.Log
