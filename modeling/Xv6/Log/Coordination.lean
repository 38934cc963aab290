import Xv6.Log.Stages

/-!
# Operations and the commit

`log.outstanding` counts the operations between `begin_op` and `end_op`, and `log.committing`
is set exactly while a process runs `commit()`, which happens only when no operation is open.
So neither panic of `end_op` and `log_write` about the coordination can happen, and whenever
the log is quiet, no block is logged and the header on disk says so.

`log_write` checks for room before it looks for the block among those logged, so a write to an
already logged block can panic. `write_to_full_log` is a run where it does.
-/

namespace Xv6.Log

open Bio

variable {NBUF : Nat} (P : Params)

/-- The header on disk names the transaction. -/
def Stage.Committed : Stage → Prop
  | .install _ | .clear => True
  | _ => False

/-- What `begin_op`, `end_op` and `commit()` keep. -/
structure Coordinated (s : Sys NBUF) : Prop where
  start : s.log.start = P.logstart
  size : s.log.size = P.nlog
  dev : s.log.dev = P.dev
  lined : s.cache.bcache.Lined
  counted : s.log.outstanding = s.ops.length
  committing : s.log.committing = s.commit.isSome
  quiet : s.commit.isSome → s.ops = []
  booting : s.recovery.isSome → s.ops = [] ∧ s.commit = none
  drained : s.commit = none → s.recovery = none → s.ops = [] → s.log.lh.n = 0
  finished : ∀ r, (s.commit = some r ∨ s.recovery = some r) → r.stage = .finish → s.log.lh.n = 0
  header : (∀ r, s.commit = some r → ¬r.stage.Committed) → (∀ r, s.recovery = some r → r.stage = .finish) →
    s.cache.disk s.log.start 0 = 0

/-! ### `log_write` and `end_op`, taken apart -/

theorem logWrite_ok {log log' : Log} {c c' : Cache NBUF} {b : Fin NBUF}
    (wrote : logWrite P log c b = .ok (log', c')) :
    ¬(log.lh.n ≥ P.LOGSIZE ∨ log.lh.n ≥ log.size - 1) ∧ ¬log.outstanding < 1 ∧
      ((absorb log.lh (c.bcache.buf b).blockno = log.lh.n ∧
        log' = { log with lh := ⟨log.lh.n + 1, Function.update log.lh.block log.lh.n (c.bcache.buf b).blockno⟩ } ∧
        c' = c.bpin b) ∨
      (absorb log.lh (c.bcache.buf b).blockno ≠ log.lh.n ∧
        log' = { log with lh := { log.lh with
          block := Function.update log.lh.block (absorb log.lh (c.bcache.buf b).blockno) (c.bcache.buf b).blockno } } ∧
        c' = c)) := by
  unfold logWrite at wrote
  split at wrote
  next => cases wrote
  next fits =>
    split at wrote
    next => cases wrote
    next inside =>
      dsimp only at wrote
      split at wrote <;> simp only [Ends.ok.injEq, Prod.mk.injEq] at wrote <;> obtain ⟨rfl, rfl⟩ := wrote
      next new => exact ⟨fits, inside, .inl ⟨new, by rw [new], rfl⟩⟩
      next old => exact ⟨fits, inside, .inr ⟨old, rfl, rfl⟩⟩

theorem logWrite_panics (log : Log) (c : Cache NBUF) (b : Fin NBUF) (inside : 1 ≤ log.outstanding) :
    (logWrite P log c b).PanicsWith "too big a transaction" := by
  intro m panics
  unfold logWrite at panics
  split at panics
  · cases panics; rfl
  · rw [if_neg (by omega)] at panics
    dsimp only at panics
    split at panics <;> cases panics

/-! ### A full log -/

/-- `LOGSIZE = 3` and `MAXOPBLOCKS = 1`. -/
def smallLog : Params := ⟨3, 1, 1, 2, 4⟩

/-- Boot over a zeroed disk and recover. -/
def threeWrites : List (Event 3) :=
  [.recover, .recover, .recover, .recover, .beginOp 1, .beginOp 2, .beginOp 3,
    .bread 1 1 10, .bread 2 1 11, .bread 3 1 12,
    .write 1 1 fun _ => 7, .write 2 2 fun _ => 8, .write 3 0 fun _ => 9]

def fullLog : Sys 3 :=
  ((Sys.boot smallLog (fun _ _ => 0) 1).runs smallLog threeWrites).getD (Sys.boot smallLog (fun _ _ => 0) 1)

theorem fullLog_reachable : Reachable smallLog fullLog :=
  @Reachable.runs 3 smallLog (Sys.boot smallLog (fun _ _ => 0) 1) fullLog threeWrites (.boot _ _) (by decide) rfl

/-- Each operation has written one block, and the log holds three. -/
theorem write_to_full_log :
    smallLog.LOGSIZE ≤ smallLog.nlog - 1 ∧ Reachable smallLog fullLog ∧
    (∀ o ∈ fullLog.ops, o.written.length ≤ smallLog.MAXOPBLOCKS) ∧
    fullLog.Allowed (.write 1 1 fun _ => 5) ∧
    (∃ o ∈ fullLog.ops, o.pid = 1 ∧ (fullLog.cache.bcache.buf 1).blockno ∈ o.written) ∧
    (∃ i < fullLog.log.lh.n, fullLog.log.lh.block i = (fullLog.cache.bcache.buf 1).blockno) ∧
    fullLog.step smallLog (.write 1 1 fun _ => 5) = .panic "too big a transaction" :=
  ⟨by decide, fullLog_reachable, by decide, by decide, by decide, by decide, rfl⟩

theorem endOp_ok {log : Log} (idle : log.committing = false) :
    endOp log = .ok (if log.outstanding - 1 = 0 then
      ({ log with outstanding := log.outstanding - 1, committing := true }, true)
      else ({ log with outstanding := log.outstanding - 1 }, false)) := by
  unfold endOp
  simp only [idle, Bool.false_eq_true, ite_false]
  split <;> rfl

/-! ### One step -/

namespace Coordinated

variable {P} {s s' : Sys NBUF}

theorem boot (disk : Disk) (pid : Nat) : Coordinated P (Sys.boot P disk pid : Sys NBUF) where
  start := rfl
  size := rfl
  dev := rfl
  lined := Bcache.binit_lined.1
  counted := rfl
  committing := rfl
  quiet := by simp [Sys.boot]
  booting _ := ⟨rfl, rfl⟩
  drained := by simp [Sys.boot]
  finished := by simp [Sys.boot]
  header _ recovering := by simp [Sys.boot] at recovering

theorem cache (coord : Coordinated P s) {c : Cache NBUF} (lined : c.bcache.Lined) (disk : c.disk = s.cache.disk) :
    Coordinated P { s with cache := c } :=
  { coord with
      lined
      header := fun idle quiet => disk ▸ coord.header idle quiet }

theorem idle_of_inOp (coord : Coordinated P s) {pid : Nat} (inside : s.InOp pid) :
    s.commit = none ∧ s.recovery = none ∧ s.log.committing = false := by
  obtain ⟨o, mem, -⟩ := inside
  have open_ : s.ops ≠ [] := List.ne_nil_of_mem mem
  have commit : s.commit = none := Option.not_isSome_iff_eq_none.mp fun some => open_ (coord.quiet some)
  exact ⟨commit, Option.not_isSome_iff_eq_none.mp fun some => open_ (coord.booting some).1,
    by rw [coord.committing, commit]; rfl⟩

theorem commitMove (coord : Coordinated P s) {r : Run} (running : s.commit = some r) {c : Cache NBUF}
    (lined : c.bcache.Lined) (lh : Logheader) (stage : Stage) (finished : stage = .finish → lh.n = 0)
    (header : ¬stage.Committed → c.disk s.log.start 0 = 0) :
    Coordinated P { s with log := { s.log with lh }, cache := c, commit := some ⟨r.pid, stage⟩ } := by
  have recovery : s.recovery = none :=
    Option.not_isSome_iff_eq_none.mp fun some => by simp [(coord.booting some).2] at running
  exact { coord with
    lined
    committing := by simp [coord.committing, running]
    quiet := fun _ => coord.quiet (by simp [running])
    booting := by simp [recovery]
    drained := by simp
    finished := fun _ running' finish => by
      simp [recovery] at running'
      subst running'
      exact finished finish
    header := fun unwritten _ => header (unwritten _ rfl) }

theorem recoverMove (coord : Coordinated P s) {r : Run} (running : s.recovery = some r) {c : Cache NBUF}
    (lined : c.bcache.Lined) (lh : Logheader) (stage : Stage) (finished : stage = .finish → lh.n = 0)
    (header : stage = .finish → c.disk s.log.start 0 = 0) :
    Coordinated P { s with log := { s.log with lh }, cache := c, recovery := some ⟨r.pid, stage⟩ } := by
  obtain ⟨ops, commit⟩ := coord.booting (by simp [running])
  exact { coord with
    lined
    booting := fun _ => ⟨ops, commit⟩
    drained := by simp
    finished := fun _ running' finish => by
      simp [commit] at running'
      subst running'
      exact finished finish
    header := fun _ recovered => header (recovered _ rfl) }

theorem commitStep (coord : Coordinated P s) {r : Run} (running : s.commit = some r)
    (ran : s.commitStep r.pid r.stage = .ok s') : Coordinated P s' := by
  have unwritten (stage : Stage) (at_ : r.stage = stage) (before : ¬stage.Committed) :
      s.cache.disk s.log.start 0 = 0 :=
    coord.header (by simp [running, at_, before]) fun _ some => by
      simp [(coord.booting (by simp [some])).2] at running
  obtain ⟨pid, stage⟩ := r
  cases stage with
  | start =>
    cases ran
    refine coord.commitMove running coord.lined s.log.lh _ (fun finish => ?_) fun _ => unwritten .start rfl id
    split at finish <;> simp_all
  | writeLog tail =>
    simp only [Sys.commitStep] at ran
    split at ran
    · obtain ⟨c, wrote, rfl⟩ := Ends.bind_pure_eq_ok.mp ran
      obtain ⟨lined, data, disk⟩ := writeLog_lined coord.lined wrote
      refine coord.commitMove running lined s.log.lh _ (by simp) fun _ => ?_
      rw [disk, Function.update_noteq (by omega)]
      exact unwritten (.writeLog tail) rfl id
    · cases ran
      exact coord.commitMove running coord.lined s.log.lh _ (by simp) fun _ => unwritten (.writeLog tail) rfl id
  | writeHead =>
    obtain ⟨c, wrote, rfl⟩ := Ends.bind_pure_eq_ok.mp ran
    exact coord.commitMove running (writeHead_lined coord.lined wrote).1 s.log.lh _ (by simp) fun unwritten =>
      absurd trivial unwritten
  | install tail =>
    simp only [Sys.commitStep] at ran
    split at ran
    · obtain ⟨c, wrote, rfl⟩ := Ends.bind_pure_eq_ok.mp ran
      exact coord.commitMove running (installTrans_lined coord.lined wrote).1 s.log.lh _ (by simp) fun unwritten =>
        absurd trivial unwritten
    · cases ran
      exact coord.commitMove running coord.lined s.log.lh _ (by simp) fun unwritten => absurd trivial unwritten
  | clear =>
    obtain ⟨c, wrote, rfl⟩ := Ends.bind_pure_eq_ok.mp ran
    obtain ⟨lined, data, disk⟩ := writeHead_lined coord.lined wrote
    exact coord.commitMove running lined _ _ (fun _ => rfl) fun _ => by simp [disk, writeHeader]
  | finish =>
    cases ran
    have recovery : s.recovery = none :=
      Option.not_isSome_iff_eq_none.mp fun some => by simp [(coord.booting some).2] at running
    have empty := coord.finished _ (.inl running) rfl
    exact { coord with
      committing := rfl
      quiet := by simp
      booting := by simp [recovery]
      drained := fun _ _ _ => empty
      finished := by simp [recovery]
      header := fun _ _ => unwritten .finish rfl id }

theorem recoverStep (coord : Coordinated P s) {r : Run} (running : s.recovery = some r)
    (ran : s.recoverStep r.pid r.stage = .ok s') : Coordinated P s' := by
  obtain ⟨pid, stage⟩ := r
  cases stage with
  | start =>
    obtain ⟨⟨lh, c⟩, read, ran⟩ := Ends.bind_eq_ok.mp ran
    simp only [Ends.pure_eq, Ends.ok.injEq] at ran
    subst ran
    exact coord.recoverMove running (readHead_lined coord.lined read).1 lh _ (by simp) (by simp)
  | install tail =>
    simp only [Sys.recoverStep] at ran
    split at ran
    · obtain ⟨c, wrote, rfl⟩ := Ends.bind_pure_eq_ok.mp ran
      exact coord.recoverMove running (installTrans_lined coord.lined wrote).1 s.log.lh _ (by simp) (by simp)
    · cases ran
      exact coord.recoverMove running coord.lined s.log.lh _ (by simp) (by simp)
  | clear =>
    obtain ⟨c, wrote, rfl⟩ := Ends.bind_pure_eq_ok.mp ran
    obtain ⟨lined, data, disk⟩ := writeHead_lined coord.lined wrote
    exact coord.recoverMove running lined _ _ (fun _ => rfl) fun _ => by simp [disk, writeHeader]
  | finish =>
    cases ran
    obtain ⟨ops, commit⟩ := coord.booting (by simp [running])
    have empty := coord.finished _ (.inr running) rfl
    exact { coord with
      booting := by simp
      drained := fun _ _ _ => empty
      finished := by simp [commit]
      header := fun _ _ => coord.header (by simp [commit]) (by simp [running]) }
  | writeLog | writeHead => cases ran

theorem step (coord : Coordinated P s) {e : Event NBUF} (allowed : s.Allowed e) (step : s.step P e = .ok s') :
    Coordinated P s' := by
  cases e with
  | beginOp pid =>
    simp only [Sys.step] at step
    split at step
    next log admitted =>
      cases step
      unfold beginOp at admitted
      split at admitted
      · cases admitted
      next idle =>
        split at admitted
        · cases admitted
        · cases admitted
          have commit : s.commit = none := by
            simpa [coord.committing, Option.not_isSome_iff_eq_none] using idle
          exact { coord with
              counted := by simp [coord.counted]
              committing := coord.committing
              quiet := by simp [commit]
              booting := by simp [allowed.1]
              drained := by simp
              finished := by simp [commit, allowed.1] }
    · cases step; exact coord
  | endOp pid =>
    obtain ⟨commit, recovery, idle⟩ := coord.idle_of_inOp allowed.1
    obtain ⟨o, mem, rfl⟩ := allowed.1
    have header := coord.header (by simp [commit]) (by simp [recovery])
    have length : (s.ops.eraseP fun o' => o'.pid = o.pid).length = s.ops.length - 1 :=
      List.length_eraseP_of_mem mem (by simp)
    have pos : 0 < s.ops.length := List.length_pos_of_mem mem
    simp only [Sys.step, endOp_ok idle, Ends.ok_bind, Ends.pure_eq, Ends.ok.injEq] at step
    subst step
    split
    next last =>
      have empty : (s.ops.eraseP fun o' => o'.pid = o.pid) = [] := by
        rw [← List.length_eq_zero, length]; rw [coord.counted] at last; omega
      exact { coord with
          counted := by simp [empty, coord.counted] at last ⊢; omega
          committing := rfl
          quiet := fun _ => empty
          booting := by simp [recovery]
          drained := by simp
          finished := by simp [recovery]
          header := fun _ _ => header }
    next more =>
      exact { coord with
          counted := by simp [length, coord.counted]; omega
          committing := by simp [idle, commit]
          quiet := by simp [commit]
          booting := by simp [recovery]
          finished := by simp [commit, recovery]
          drained := fun _ _ empty => by
            have := congrArg List.length empty
            rw [length, List.length_nil] at this
            rw [coord.counted] at more
            omega
          header := fun _ _ => header }
  | commit =>
    simp only [Sys.step] at step
    split at step
    next r running => exact coord.commitStep running step
    · cases step
  | recover =>
    simp only [Sys.step] at step
    split at step
    next r running => exact coord.recoverStep running step
    · cases step
  | bread pid dev blockno =>
    obtain ⟨⟨b, c⟩, got, step⟩ := Ends.bind_eq_ok.mp step
    simp only [Ends.pure_eq, Ends.ok.injEq] at step
    subst step
    obtain ⟨lined, disk, -⟩ := coord.lined.cache_bread got
    exact coord.cache lined disk
  | write pid b data =>
    obtain ⟨commit, recovery, -⟩ := coord.idle_of_inOp allowed.1
    obtain ⟨⟨log, c⟩, wrote, step⟩ := Ends.bind_eq_ok.mp step
    simp only [Ends.pure_eq, Ends.ok.injEq] at step
    subst step
    obtain ⟨o, mem, -⟩ := allowed.1
    have open_ : s.ops ≠ [] := List.ne_nil_of_mem mem
    obtain ⟨-, -, ⟨-, rfl, rfl⟩ | ⟨-, rfl, rfl⟩⟩ := logWrite_ok P wrote
    all_goals
      refine { coord with
        lined := ?_
        counted := by simp [coord.counted]
        quiet := by simp [commit]
        booting := by simp [recovery]
        finished := by simp [commit, recovery]
        drained := fun _ _ none => absurd (List.map_eq_nil_iff.mp none) open_
        header := fun idle quiet => coord.header idle quiet }
    · exact (coord.lined.cache_modify data).cache_bpin
    · exact coord.lined.cache_modify data
  | brelse pid b =>
    cases step
    exact coord.cache coord.lined.cache_brelse rfl
  | reboot pid =>
    cases step
    exact boot _ _

theorem step_panics (coord : Coordinated P s) {e : Event NBUF}
    (allowed : s.Allowed e) {msg : String} (panics : s.step P e = .panic msg) :
    msg = "bget: no buffers" ∨ msg = "too big a transaction" := by
  cases e with
  | beginOp => simp only [Sys.step] at panics; split at panics <;> cases panics
  | endOp =>
    obtain ⟨-, -, idle⟩ := coord.idle_of_inOp allowed.1
    simp [Sys.step, endOp_ok idle] at panics
  | commit =>
    simp only [Sys.step] at panics
    split at panics
    · exact .inl (Sys.commitStep_panics _ _ _ _ panics)
    · cases panics
  | recover =>
    simp only [Sys.step] at panics
    split at panics
    · exact .inl (Sys.recoverStep_panics _ _ _ _ panics)
    · cases panics
  | bread => exact .inl (Ends.PanicsWith.bind (Cache.bread_panics _ _ _ _) (fun ⟨_, _⟩ => .ok _) _ panics)
  | write =>
    have inside : 1 ≤ s.log.outstanding := by
      obtain ⟨o, mem, -⟩ := allowed.1
      have := List.length_pos_of_mem mem
      rw [coord.counted]; omega
    exact .inr (Ends.PanicsWith.bind (logWrite_panics P _ _ _ inside) (fun ⟨_, _⟩ => .ok _) _ panics)
  | brelse | reboot => cases panics

end Coordinated

theorem coordinated_reachable {s : Sys NBUF} (reach : Reachable P s) : Coordinated P s := by
  induction reach with
  | boot disk pid => exact .boot disk pid
  | step _ _ allowed step coord => exact coord.step allowed step

/-- `log.outstanding` never goes below 0. -/
theorem log_coordination {s : Sys NBUF} (reach : Reachable P s) :
    0 ≤ s.log.outstanding ∧
    (s.log.committing = true → s.log.outstanding = 0 ∧ s.ops = []) ∧
    (∀ e, s.Allowed e → s.step P e ≠ .panic "log.committing" ∧
      s.step P e ≠ .panic "log_write outside of trans") ∧
    (s.recovery = none → s.log.outstanding = 0 → s.log.committing = false →
      s.log.lh.n = 0 ∧ s.cache.disk s.log.start 0 = 0) := by
  have coord := coordinated_reachable P reach
  refine ⟨by rw [coord.counted]; omega, fun committing => ?_, fun e allowed => ⟨fun panics => ?_, fun panics => ?_⟩,
    fun recovery idle quiet => ?_⟩
  · have ops := coord.quiet (by rw [← coord.committing]; exact committing)
    exact ⟨by rw [coord.counted, ops]; rfl, ops⟩
  · rcases coord.step_panics allowed panics with bad | bad <;> exact absurd bad (by decide)
  · rcases coord.step_panics allowed panics with bad | bad <;> exact absurd bad (by decide)
  · have ops : s.ops = [] := List.length_eq_zero.mp (by have := coord.counted; omega)
    have commit : s.commit = none := by simpa [coord.committing] using quiet
    exact ⟨coord.drained commit recovery ops, coord.header (by simp [commit]) (by simp [recovery])⟩

theorem log_coordination_full_log :
    Reachable smallLog fullLog ∧
    (0 ≤ fullLog.log.outstanding ∧
    (fullLog.log.committing = true → fullLog.log.outstanding = 0 ∧ fullLog.ops = []) ∧
    (∀ e, fullLog.Allowed e → fullLog.step smallLog e ≠ .panic "log.committing" ∧
      fullLog.step smallLog e ≠ .panic "log_write outside of trans") ∧
    (fullLog.recovery = none → fullLog.log.outstanding = 0 → fullLog.log.committing = false →
      fullLog.log.lh.n = 0 ∧ fullLog.cache.disk fullLog.log.start 0 = 0)) :=
  ⟨fullLog_reachable, log_coordination smallLog fullLog_reachable⟩

end Xv6.Log
