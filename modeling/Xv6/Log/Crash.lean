import Xv6.Log.Pins

/-!
# Crashes

`commit()` writes the cached contents of the transaction's blocks to the log, the header that
names them, each block home, and an empty header. A crash may stop it after any of those
writes, and each recovery after it may crash in turn. Once a recovery finishes, every block of
the transaction holds what the cache held when the commit began if the commit's first
`write_head` ran, and what it held before if it did not; the rest of the disk outside the log is
as it was, and the header is empty.

The transaction is `lh`, the disk before the commit `pre`, and the cache's contents when the
commit began `post`.
-/

namespace Xv6.Log

open Bio

variable {NBUF : Nat} (P : Params)

/-- The events once `commit()` has begun that need no file system call. -/
def Event.ofCommit : Event NBUF → Bool
  | .commit | .recover | .reboot _ => true
  | _ => false

/-- Whether `e` is the commit's first `write_head`, the write that commits the transaction. -/
def Sys.landsHeader (s : Sys NBUF) (e : Event NBUF) : Bool :=
  (e matches .commit) && s.commit.any fun r => r.stage == .writeHead

/-- Whether the commit's first `write_head` is among the events `es` takes from `s`. -/
def Sys.headerLanded (s : Sys NBUF) : List (Event NBUF) → Bool
  | [] => false
  | e :: es => s.landsHeader e || match s.step P e with
    | .ok s' => s'.headerLanded es
    | _ => false

/-! ### The header block -/

theorem writeHeader_landed (lh : Logheader) (data : Block) :
    writeHeader lh data 0 = lh.n ∧ ∀ i < lh.n, writeHeader lh data (i + 1) = lh.block i :=
  ⟨rfl, fun i below => by simp [writeHeader, Nat.succ_le_of_lt below]⟩

theorem writeHeader_clear {lh : Logheader} {data : Block} (zero : lh.n = 0) (clear : data 0 = 0) :
    writeHeader lh data = data := by
  funext w
  by_cases w0 : w = 0
  · subst w0; simp [writeHeader, zero, clear]
  · simp [writeHeader, w0, zero]

theorem readHeader_landed {lh : Logheader} {data : Block} (old : Logheader)
    (landed : data 0 = lh.n ∧ ∀ i < lh.n, data (i + 1) = lh.block i) :
    (readHeader data old).n = lh.n ∧ ∀ i < lh.n, (readHeader data old).block i = lh.block i :=
  ⟨landed.1, fun i below => by simp [readHeader, landed.1, below, landed.2 i below]⟩

/-! ### Where the disk can be -/

section

variable (lh : Logheader) (pre post : Disk)

/-- The header on disk names the transaction. -/
def Landed (disk : Disk) : Prop :=
  disk P.logstart 0 = lh.n ∧ ∀ i < lh.n, disk P.logstart (i + 1) = lh.block i

/-- The first `upto` slots of the log hold the transaction's blocks as the cache held them. -/
def Copied (upto : Nat) (disk : Disk) : Prop := ∀ i < upto, disk (P.logstart + i + 1) = post (lh.block i)

/-- The first `upto` blocks of the transaction hold at home what the cache held. -/
def Installed (upto : Nat) (disk : Disk) : Prop := ∀ i < upto, disk (lh.block i) = post (lh.block i)

/-- Every block of the transaction holds at home what it held before. -/
def Untouched (disk : Disk) : Prop := ∀ i < lh.n, disk (lh.block i) = pre (lh.block i)

/-- Outside the log and the transaction the disk is as it was. -/
def Outside (disk : Disk) : Prop :=
  ∀ k, (∀ i < lh.n, lh.block i ≠ k) → (k < P.logstart ∨ P.logstart + P.nlog ≤ k) → disk k = pre k

/-- The transaction at home once the header is empty again. -/
def Home (committed : Bool) (disk : Disk) : Prop :=
  match committed with
  | false => Untouched lh pre disk
  | true => Installed lh post lh.n disk

/-- The header is empty, and the transaction is at home. -/
def Settled (committed : Bool) (disk : Disk) : Prop := disk P.logstart 0 = 0 ∧ Home lh pre post committed disk

/-- Where a crash can leave the disk. -/
def Phase (committed : Bool) (disk : Disk) : Prop :=
  Settled P lh pre post committed disk ∨ committed = true ∧ Landed P lh disk ∧ Copied P lh post lh.n disk

/-- `write_log` has copied the first `upto` blocks, and the header on disk is still empty. -/
def Logging (s : Sys NBUF) (upto : Nat) : Prop :=
  s.log.lh = lh ∧ 0 < lh.n ∧ Installed lh post lh.n (s.cache.view s.log.dev) ∧
    Copied P lh post upto (s.cache.view s.log.dev) ∧ s.cache.disk P.logstart 0 = 0 ∧
    Untouched lh pre s.cache.disk ∧ Copied P lh post upto s.cache.disk

/-- The header has landed, and `install_trans(0)` has written the first `upto` blocks home. -/
def Installing (s : Sys NBUF) (upto : Nat) : Prop :=
  s.log.lh = lh ∧ 0 < lh.n ∧ Installed lh post lh.n (s.cache.view s.log.dev) ∧
    Copied P lh post lh.n (s.cache.view s.log.dev) ∧ Landed P lh s.cache.disk ∧
    Copied P lh post lh.n s.cache.disk ∧ Installed lh post upto s.cache.disk

/-- Where `commit()` of the transaction stands at each stage. -/
def Committing (committed : Bool) (s : Sys NBUF) : Stage → Prop
  | .start => committed = false ∧ s.log.lh = lh ∧ Installed lh post lh.n (s.cache.view s.log.dev) ∧
      s.cache.disk P.logstart 0 = 0 ∧ Untouched lh pre s.cache.disk
  | .writeLog tail => committed = false ∧ Logging P lh pre post s tail
  | .writeHead => committed = false ∧ Logging P lh pre post s lh.n
  | .install tail => committed = true ∧ Installing P lh post s tail
  | .clear => committed = true ∧ Installing P lh post s lh.n
  | .finish => Settled P lh pre post committed s.cache.disk

/-- A recovery that has read the transaction's header and written the first `upto` blocks home. -/
def Replaying (s : Sys NBUF) (upto : Nat) : Prop :=
  s.log.lh.n = lh.n ∧ (∀ i < lh.n, s.log.lh.block i = lh.block i) ∧ Landed P lh s.cache.disk ∧
    Copied P lh post lh.n s.cache.disk ∧ Installed lh post upto s.cache.disk

/-- Where `recover_from_log()` stands at each stage. -/
def Recovering (committed : Bool) (s : Sys NBUF) : Stage → Prop
  | .start => s.log.lh.n = 0 ∧ Phase P lh pre post committed s.cache.disk
  | .install tail =>
    s.log.lh.n = 0 ∧ Settled P lh pre post committed s.cache.disk ∨ committed = true ∧ Replaying P lh post s tail
  | .clear =>
    s.log.lh.n = 0 ∧ Settled P lh pre post committed s.cache.disk ∨ committed = true ∧ Replaying P lh post s lh.n
  | .finish => Settled P lh pre post committed s.cache.disk
  | .writeLog _ | .writeHead => False

/-- The commit of the transaction, and the crashes and recoveries after it. -/
def Atomic (committed : Bool) (s : Sys NBUF) : Prop :=
  Outside P lh pre s.cache.disk ∧
    match s.commit, s.recovery with
    | some r, _ => Committing P lh pre post committed s r.stage
    | none, some r => Recovering P lh pre post committed s r.stage
    | none, none => Settled P lh pre post committed s.cache.disk

end

/-! ### Writes that keep each part -/

section

variable {P} {lh : Logheader} {pre post disk : Disk} {k : Nat} (data : Block)

theorem Landed.update (landed : Landed P lh disk) (away : P.logstart ≠ k) :
    Landed P lh (Function.update disk k data) := by
  simp only [Landed, Function.update_noteq away]; exact landed

theorem Copied.update {upto : Nat} (copied : Copied P lh post upto disk) (away : ∀ i < upto, P.logstart + i + 1 ≠ k) :
    Copied P lh post upto (Function.update disk k data) := fun i below => by
  rw [Function.update_noteq (away i below)]; exact copied i below

theorem Installed.update {upto : Nat} (installed : Installed lh post upto disk) (away : ∀ i < upto, lh.block i ≠ k) :
    Installed lh post upto (Function.update disk k data) := fun i below => by
  rw [Function.update_noteq (away i below)]; exact installed i below

theorem Untouched.update (untouched : Untouched lh pre disk) (away : ∀ i < lh.n, lh.block i ≠ k) :
    Untouched lh pre (Function.update disk k data) := fun i below => by
  rw [Function.update_noteq (away i below)]; exact untouched i below

theorem Home.update {committed : Bool} (home : Home lh pre post committed disk) (away : ∀ i < lh.n, lh.block i ≠ k) :
    Home lh pre post committed (Function.update disk k data) := by
  cases committed
  · exact Untouched.update data home away
  · exact Installed.update data home away

theorem Outside.log (outside : Outside P lh pre disk) (inside : P.logstart ≤ k ∧ k < P.logstart + P.nlog) :
    Outside P lh pre (Function.update disk k data) := fun j away far => by
  rw [Function.update_noteq (by omega)]; exact outside j away far

theorem Outside.home (outside : Outside P lh pre disk) {t : Nat} (below : t < lh.n) :
    Outside P lh pre (Function.update disk (lh.block t) data) := fun j away far => by
  rw [Function.update_noteq (away t below).symm]; exact outside j away far

end

section

variable {P} {lh : Logheader} {post disk : Disk} {upto : Nat}

theorem Copied.mono {upto' : Nat} (copied : Copied P lh post upto disk) (le : upto' ≤ upto) :
    Copied P lh post upto' disk := fun i below => copied i (by omega)

theorem Installed.mono {upto' : Nat} (installed : Installed lh post upto disk) (le : upto' ≤ upto) :
    Installed lh post upto' disk := fun i below => installed i (by omega)

theorem Installed.put (installed : Installed lh post upto disk) (t : Nat) :
    Installed lh post upto (Function.update disk (lh.block t) (post (lh.block t))) := fun i below => by
  by_cases same : lh.block i = lh.block t
  · rw [same, Function.update_same]
  · rw [Function.update_noteq same]; exact installed i below

theorem Installed.succ (installed : Installed lh post upto disk) :
    Installed lh post (upto + 1) (Function.update disk (lh.block upto) (post (lh.block upto))) := fun i below => by
  rcases Nat.lt_succ_iff_lt_or_eq.mp below with below | rfl
  · exact installed.put upto i below
  · exact Function.update_same _ _ _

theorem Copied.succ (copied : Copied P lh post upto disk) :
    Copied P lh post (upto + 1) (Function.update disk (P.logstart + upto + 1) (post (lh.block upto))) :=
  fun i below => by
    rcases Nat.lt_succ_iff_lt_or_eq.mp below with below | rfl
    · rw [Function.update_noteq (by omega)]; exact copied i below
    · exact Function.update_same _ _ _

end

/-! ### One step -/

section

variable {P} {lh : Logheader} {pre post : Disk}
  (apart : ∀ i < lh.n, lh.block i < P.logstart ∨ P.logstart + P.nlog ≤ lh.block i) (fits : lh.n ≤ P.nlog - 1)
include apart fits

theorem block_ne_start {i : Nat} (below : i < lh.n) : P.logstart ≠ lh.block i := by
  have := apart i below; omega

theorem block_ne_slot {i j : Nat} (below : i < lh.n) (slot : j < lh.n) : lh.block i ≠ P.logstart + j + 1 := by
  have := apart i below; omega

omit apart in
theorem start_inside (pos : 0 < lh.n) : P.logstart ≤ P.logstart ∧ P.logstart < P.logstart + P.nlog := by omega

omit apart in
theorem slot_inside {j : Nat} (slot : j < lh.n) :
    P.logstart ≤ P.logstart + j + 1 ∧ P.logstart + j + 1 < P.logstart + P.nlog := by omega

omit apart in
theorem Outside.clear {disk : Disk} (outside : Outside P lh pre disk) (header : disk P.logstart 0 = 0 ∨ 0 < lh.n)
    (lh' : Logheader) :
    Outside P lh pre (Function.update disk P.logstart (writeHeader { lh' with n := 0 } (disk P.logstart))) := by
  by_cases pos : 0 < lh.n
  · exact outside.log _ (start_inside fits pos)
  · rw [writeHeader_clear rfl (header.resolve_right pos), Function.update_eq_self]; exact outside

end

theorem Coordinated.recovery_none {P : Params} {s : Sys NBUF} (coord : Coordinated P s) (committing : s.commit.isSome) :
    s.recovery = none :=
  Option.not_isSome_iff_eq_none.mp fun some => by simp [(coord.booting some).2] at committing

namespace Atomic

variable {P} {lh : Logheader} {pre post : Disk} {committed : Bool} {s s' : Sys NBUF}

theorem of_commit {r : Run} (outside : Outside P lh pre s.cache.disk) (running : s.commit = some r)
    (committing : Committing P lh pre post committed s r.stage) : Atomic P lh pre post committed s := by
  unfold Atomic; rw [running]; exact ⟨outside, committing⟩

theorem of_recovery {r : Run} (outside : Outside P lh pre s.cache.disk) (commit : s.commit = none)
    (running : s.recovery = some r) (recovering : Recovering P lh pre post committed s r.stage) : Atomic P lh pre post committed s := by
  unfold Atomic; rw [commit, running]; exact ⟨outside, recovering⟩

theorem of_settled (outside : Outside P lh pre s.cache.disk) (commit : s.commit = none) (recovery : s.recovery = none)
    (settled : Settled P lh pre post committed s.cache.disk) : Atomic P lh pre post committed s := by
  unfold Atomic; rw [commit, recovery]; exact ⟨outside, settled⟩

theorem committing (atomic : Atomic P lh pre post committed s) {r : Run} (running : s.commit = some r) :
    Committing P lh pre post committed s r.stage := by
  have := atomic.2; rw [running] at this; exact this

theorem recovering (atomic : Atomic P lh pre post committed s) (commit : s.commit = none) {r : Run}
    (running : s.recovery = some r) : Recovering P lh pre post committed s r.stage := by
  have := atomic.2; rw [commit, running] at this; exact this

theorem settled (atomic : Atomic P lh pre post committed s) (commit : s.commit = none) (recovery : s.recovery = none) :
    Settled P lh pre post committed s.cache.disk := by
  have := atomic.2; rw [commit, recovery] at this; exact this

theorem phase (atomic : Atomic P lh pre post committed s) : Phase P lh pre post committed s.cache.disk := by
  cases commit : s.commit with
  | some r =>
    have committing := atomic.committing commit
    obtain ⟨pid, stage⟩ := r
    cases stage with
    | start => obtain ⟨rfl, -, -, header, untouched⟩ := committing; exact .inl ⟨header, untouched⟩
    | writeLog | writeHead =>
      obtain ⟨rfl, -, -, -, -, header, untouched, -⟩ := committing; exact .inl ⟨header, untouched⟩
    | install | clear => obtain ⟨rfl, -, -, -, -, landed, copied, -⟩ := committing; exact .inr ⟨rfl, landed, copied⟩
    | finish => exact .inl committing
  | none =>
    cases recovery : s.recovery with
    | some r =>
      have recovering := atomic.recovering commit recovery
      obtain ⟨pid, stage⟩ := r
      cases stage with
      | start => exact recovering.2
      | install | clear =>
        rcases recovering with ⟨-, settled⟩ | ⟨rfl, -, -, landed, copied, -⟩
        · exact .inl settled
        · exact .inr ⟨rfl, landed, copied⟩
      | finish => exact .inl recovering
      | writeLog | writeHead => exact recovering.elim
    | none => exact .inl (atomic.settled commit recovery)

variable (apart : ∀ i < lh.n, lh.block i < P.logstart ∨ P.logstart + P.nlog ≤ lh.block i) (fits : lh.n ≤ P.nlog - 1)
include apart fits

theorem commitStep (atomic : Atomic P lh pre post committed s) (logged : Logged P s) (coord : Coordinated P s) {r : Run}
    (running : s.commit = some r) (ran : s.commitStep r.pid r.stage = .ok s') :
    Atomic P lh pre post (r.stage == .writeHead || committed) s' := by
  have recovery := coord.recovery_none (by simp [running])
  have idle := logged.idle (coord.quiet (by simp [running]))
  have committing := atomic.committing running
  have outside := atomic.1
  obtain ⟨pid, stage⟩ := r
  cases stage with
  | start =>
    cases ran
    obtain ⟨rfl, lh_eq, shows, header, untouched⟩ := committing
    by_cases pos : 0 < s.log.lh.n
    · refine of_commit outside rfl ?_
      simp only [pos, ite_true]
      exact ⟨rfl, lh_eq, lh_eq ▸ pos, shows, nofun, header, untouched, nofun⟩
    · refine of_commit outside rfl ?_
      simp only [pos, ite_false]
      exact ⟨header, fun i below => by subst lh_eq; omega⟩
  | writeLog tail =>
    obtain ⟨rfl, lh_eq, pos, shows, showsCopied, header, untouched, copied⟩ := committing
    simp only [Sys.commitStep] at ran
    split at ran
    next below =>
      obtain ⟨c, wrote, rfl⟩ := Ends.bind_pure_eq_ok.mp ran
      obtain ⟨-, -, -, -, disk, view⟩ := writeLog_spec logged.sound idle wrote
      rw [lh_eq] at below disk view
      rw [coord.start, shows tail below] at disk view
      have slot := slot_inside fits below
      refine of_commit (disk ▸ outside.log _ slot) rfl ⟨rfl, lh_eq, pos, view ▸ shows.update _ fun i below' =>
        block_ne_slot apart fits below' below, view ▸ showsCopied.succ, ?_, disk ▸ untouched.update _ fun i below' =>
        block_ne_slot apart fits below' below, disk ▸ copied.succ⟩
      rw [disk, Function.update_noteq (by omega)]; exact header
    next done =>
      cases ran
      rw [lh_eq] at done
      exact of_commit outside rfl ⟨rfl, lh_eq, pos, shows, showsCopied.mono (by omega), header, untouched,
        copied.mono (by omega)⟩
  | writeHead =>
    obtain ⟨rfl, lh_eq, pos, shows, showsCopied, -, -, copied⟩ := committing
    obtain ⟨c, wrote, rfl⟩ := Ends.bind_pure_eq_ok.mp ran
    obtain ⟨-, -, -, -, disk, view⟩ := writeHead_spec logged.sound idle wrote
    rw [lh_eq, coord.start] at disk view
    refine of_commit (disk ▸ outside.log _ (start_inside fits pos)) rfl ⟨rfl, lh_eq, pos,
      view ▸ shows.update _ fun i below => (block_ne_start apart fits below).symm,
      view ▸ showsCopied.update _ fun i _ => by omega, ?_, disk ▸ copied.update _ fun i _ => by omega, nofun⟩
    rw [disk]
    exact ⟨by rw [Function.update_same]; exact (writeHeader_landed _ _).1,
      fun i below => by rw [Function.update_same]; exact (writeHeader_landed _ _).2 i below⟩
  | install tail =>
    obtain ⟨rfl, lh_eq, pos, shows, showsCopied, landed, copied, installed⟩ := committing
    simp only [Sys.commitStep] at ran
    split at ran
    next below =>
      obtain ⟨c, wrote, rfl⟩ := Ends.bind_pure_eq_ok.mp ran
      obtain ⟨-, -, -, -, disk, view⟩ := installTrans_spec logged.sound idle wrote fun _ =>
        logged.pinned_of_pending (Sys.mem_pending recovery (by simp [Sys.installed, running]) below)
      rw [lh_eq] at below disk view
      rw [coord.start, showsCopied tail below] at disk view
      refine of_commit (disk ▸ outside.home _ below) rfl ⟨rfl, lh_eq, pos, view ▸ shows.put tail,
        view ▸ showsCopied.update _ fun i below' => (block_ne_slot apart fits below below').symm,
        disk ▸ landed.update _ (block_ne_start apart fits below),
        disk ▸ copied.update _ fun i below' => (block_ne_slot apart fits below below').symm, disk ▸ installed.succ⟩
    next done =>
      cases ran
      rw [lh_eq] at done
      exact of_commit outside rfl ⟨rfl, lh_eq, pos, shows, showsCopied, landed, copied, installed.mono (by omega)⟩
  | clear =>
    obtain ⟨rfl, lh_eq, pos, -, -, -, -, installed⟩ := committing
    obtain ⟨c, wrote, rfl⟩ := Ends.bind_pure_eq_ok.mp ran
    have sound : s.cache.Sound ({ s.log with lh := { s.log.lh with n := 0 } } : Log).dev := logged.sound
    obtain ⟨-, -, -, -, disk, -⟩ := writeHead_spec sound idle wrote
    rw [coord.start] at disk
    refine of_commit (disk ▸ outside.log _ (start_inside fits pos)) rfl ⟨?_,
      disk ▸ installed.update _ fun i below => (block_ne_start apart fits below).symm⟩
    rw [disk, Function.update_same]; rfl
  | finish =>
    cases ran
    exact of_settled outside rfl recovery committing

theorem recoverStep (atomic : Atomic P lh pre post committed s) (logged : Logged P s) (coord : Coordinated P s) {r : Run}
    (running : s.recovery = some r) (ran : s.recoverStep r.pid r.stage = .ok s') : Atomic P lh pre post committed s' := by
  have recovering : s.recovery.isSome := by simp [running]
  have commit := (coord.booting recovering).2
  have idle := logged.idle (coord.booting recovering).1
  have shows := logged.sound.tidy.view_eq (logged.unpinned recovering)
  have recovered := atomic.recovering commit running
  have outside := atomic.1
  obtain ⟨pid, stage⟩ := r
  cases stage with
  | start =>
    obtain ⟨⟨lh', c⟩, read, ran⟩ := Ends.bind_eq_ok.mp ran
    simp only [Ends.pure_eq, Ends.ok.injEq] at ran
    subst ran
    obtain ⟨-, -, -, disk, -, rfl⟩ := readHead_spec logged.sound idle read
    refine of_recovery (disk ▸ outside) commit rfl ?_
    show (readHeader (s.cache.view s.log.dev s.log.start) s.log.lh).n = 0 ∧ _ ∨ _
    rw [shows, coord.start]
    rcases recovered.2 with ⟨header, home⟩ | ⟨rfl, landed, copied⟩
    · exact .inl ⟨header, (by rw [disk]; exact ⟨header, home⟩ : Settled P lh pre post committed c.disk)⟩
    · obtain ⟨n, block⟩ := readHeader_landed s.log.lh landed
      exact .inr ⟨rfl, n, block, (by rw [disk]; exact landed : Landed P lh c.disk),
        (by rw [disk]; exact copied : Copied P lh post lh.n c.disk), nofun⟩
  | install tail =>
    simp only [Sys.recoverStep] at ran
    split at ran
    next below =>
      obtain ⟨c, wrote, rfl⟩ := Ends.bind_pure_eq_ok.mp ran
      obtain ⟨-, -, -, -, disk, -⟩ := installTrans_spec logged.sound idle wrote nofun
      rcases recovered with ⟨empty, -⟩ | ⟨rfl, n, block, landed, copied, installed⟩
      · omega
      rw [n] at below
      rw [block tail below, shows, coord.start, copied tail below] at disk
      exact of_recovery (disk ▸ outside.home _ below) commit rfl (.inr ⟨rfl, n, block,
        disk ▸ landed.update _ (block_ne_start apart fits below),
        disk ▸ copied.update _ fun i below' => (block_ne_slot apart fits below below').symm, disk ▸ installed.succ⟩)
    next done =>
      cases ran
      refine of_recovery outside commit rfl (recovered.imp id fun ⟨same, n, block, landed, copied, installed⟩ =>
        ⟨same, n, block, landed, copied, installed.mono (by omega)⟩)
  | clear =>
    obtain ⟨c, wrote, rfl⟩ := Ends.bind_pure_eq_ok.mp ran
    have sound : s.cache.Sound ({ s.log with lh := { s.log.lh with n := 0 } } : Log).dev := logged.sound
    obtain ⟨-, -, -, -, disk, -⟩ := writeHead_spec sound idle wrote
    rw [shows, coord.start] at disk
    have header : s.cache.disk P.logstart 0 = 0 ∨ 0 < lh.n := by
      rcases recovered with ⟨-, header, -⟩ | ⟨-, -, -, landed, -⟩
      · exact .inl header
      · rw [landed.1]; omega
    refine of_recovery (disk ▸ outside.clear fits header _) commit rfl ⟨by rw [disk, Function.update_same]; rfl, ?_⟩
    rcases recovered with ⟨-, -, home⟩ | ⟨rfl, -, -, -, -, installed⟩
    · rcases header with header | pos
      · rw [disk, writeHeader_clear rfl header, Function.update_eq_self]; exact home
      · exact disk ▸ home.update _ fun i below => (block_ne_start apart fits below).symm
    · exact disk ▸ installed.update _ fun i below => (block_ne_start apart fits below).symm
  | finish =>
    cases ran
    exact of_settled outside commit rfl recovered
  | writeLog | writeHead => exact recovered.elim

theorem step (atomic : Atomic P lh pre post committed s) (reach : Reachable P s) {e : Event NBUF} (only : e.ofCommit)
    (step : s.step P e = .ok s') : Atomic P lh pre post (s.landsHeader e || committed) s' := by
  have logged := logged_reachable P reach
  have coord := coordinated_reachable P reach
  cases e with
  | commit =>
    simp only [Sys.step] at step
    split at step
    next r running =>
      rw [show s.landsHeader .commit = (r.stage == .writeHead) by simp [Sys.landsHeader, running]]
      exact atomic.commitStep apart fits logged coord running step
    · cases step
  | recover =>
    simp only [Sys.step] at step
    split at step
    next r running => exact atomic.recoverStep apart fits logged coord running step
    · cases step
  | reboot pid =>
    cases step
    exact of_recovery atomic.1 rfl rfl ⟨rfl, atomic.phase⟩
  | _ => cases only

theorem runs (atomic : Atomic P lh pre post committed s) (reach : Reachable P s) {es : List (Event NBUF)}
    (only : es.all Event.ofCommit) (ran : s.runs P es = .ok s') :
    Reachable P s' ∧ Atomic P lh pre post (s.headerLanded P es || committed) s' := by
  induction es generalizing s committed with
  | nil => cases ran; exact ⟨reach, atomic⟩
  | cons e es ih =>
    obtain ⟨s₁, stepped, ran⟩ := Ends.bind_eq_ok.mp ran
    simp only [List.all_cons, Bool.and_eq_true] at only
    have allowed : s.Allowed e := by cases e <;> first | trivial | cases only.1
    obtain ⟨reach', atomic'⟩ := ih (atomic.step apart fits reach only.1 stepped) (.step e reach allowed stepped) only.2 ran
    refine ⟨reach', ?_⟩
    simp only [Sys.headerLanded, stepped]
    rwa [Bool.or_assoc, Bool.or_left_comm]

end Atomic

/-! ### The commit of a transaction -/

/-- From the start of `commit()`, through any crashes and recoveries. -/
theorem log_crash_atomic {s₀ s : Sys NBUF} {pid : Nat} {es : List (Event NBUF)} (reach : Reachable P s₀)
    (starting : s₀.commit = some ⟨pid, .start⟩)
    (outside : ∀ i < s₀.log.lh.n, s₀.log.lh.block i < P.logstart ∨ P.logstart + P.nlog ≤ s₀.log.lh.block i)
    (crashes : es.all Event.ofCommit) (ran : s₀.runs P es = .ok s) :
    s.cache.disk P.logstart 0 ≤ min P.LOGSIZE (P.nlog - 1) ∧ s.log.lh.n ≤ min P.LOGSIZE (P.nlog - 1) ∧
    (∀ k, (∀ i < s₀.log.lh.n, s₀.log.lh.block i ≠ k) → (k < P.logstart ∨ P.logstart + P.nlog ≤ k) →
      s.cache.disk k = s₀.cache.disk k) ∧
    (s.commit = none → s.recovery = none → s.cache.disk P.logstart 0 = 0 ∧
      (s₀.headerLanded P es = true →
        ∀ i < s₀.log.lh.n, s.cache.disk (s₀.log.lh.block i) = s₀.cache.view s₀.log.dev (s₀.log.lh.block i)) ∧
      (s₀.headerLanded P es = false →
        ∀ i < s₀.log.lh.n, s.cache.disk (s₀.log.lh.block i) = s₀.cache.disk (s₀.log.lh.block i))) := by
  have logged₀ := logged_reachable P reach
  have coord₀ := coordinated_reachable P reach
  have recovery₀ := coord₀.recovery_none (by simp [starting])
  have fits := logged₀.fits recovery₀
  rw [coord₀.size] at fits
  have header₀ := coord₀.header (by simp [starting, Stage.Committed]) (by simp [recovery₀])
  rw [coord₀.start] at header₀
  have initial : Atomic P s₀.log.lh s₀.cache.disk (s₀.cache.view s₀.log.dev) false s₀ :=
    Atomic.of_commit (fun _ _ _ => rfl) starting ⟨rfl, rfl, fun _ _ => rfl, header₀, fun _ _ => rfl⟩
  obtain ⟨reach', atomic⟩ := initial.runs outside fits.2 reach crashes ran
  rw [Bool.or_false] at atomic
  have logged := logged_reachable P reach'
  have coord := coordinated_reachable P reach'
  have header : s.cache.disk P.logstart 0 ≤ s₀.log.lh.n := by
    rcases atomic.phase with ⟨header, -⟩ | ⟨-, landed, -⟩
    · omega
    · exact landed.1.le
  refine ⟨by omega, ?_, atomic.1, fun commit recovery => ?_⟩
  · cases recovery : s.recovery with
    | none =>
      have := logged.fits recovery
      rw [coord.size] at this
      omega
    | some r =>
      have commit := (coord.booting (by simp [recovery])).2
      have recovering := atomic.recovering commit recovery
      obtain ⟨pid', stage⟩ := r
      cases stage with
      | start => have := recovering.1; omega
      | install | clear => rcases recovering with ⟨empty, -⟩ | ⟨-, n, -⟩ <;> omega
      | finish => have := coord.finished _ (.inr recovery) rfl; omega
      | writeLog | writeHead => exact recovering.elim
  · -- the flag says which way the transaction went home
    obtain ⟨header, home⟩ := atomic.settled commit recovery
    exact ⟨header, fun landed => by rwa [landed] at home, fun landed => by rwa [landed] at home⟩

/-- Process 1 reads block 10, writes it and ends its operation, which starts the commit. -/
def oneWrite : List (Event 3) :=
  [.recover, .recover, .recover, .recover, .beginOp 1, .bread 1 1 10, .write 1 1 fun _ => 7, .brelse 1 1, .endOp 1]

def oneCommit : Sys 3 :=
  ((Sys.boot smallLog (fun _ _ => 0) 1).runs smallLog oneWrite).getD (Sys.boot smallLog (fun _ _ => 0) 1)

theorem oneCommit_reachable : Reachable smallLog oneCommit :=
  @Reachable.runs 3 smallLog (Sys.boot smallLog (fun _ _ => 0) 1) oneCommit oneWrite (.boot _ _) (by decide) rfl

/-- The commit logs block 10, lands its header and crashes. -/
def crashTwice : List (Event 3) :=
  [.commit, .commit, .commit, .commit, .reboot 2, .recover, .reboot 3, .recover, .recover, .recover, .recover,
    .recover]

def afterCrashes : Sys 3 := (oneCommit.runs smallLog crashTwice).getD oneCommit

theorem log_crash_atomic_crash_twice :
    Reachable smallLog oneCommit ∧ oneCommit.commit = some ⟨1, .start⟩ ∧
    (∀ i < oneCommit.log.lh.n, oneCommit.log.lh.block i < smallLog.logstart ∨
      smallLog.logstart + smallLog.nlog ≤ oneCommit.log.lh.block i) ∧
    crashTwice.all Event.ofCommit ∧ oneCommit.runs smallLog crashTwice = .ok afterCrashes ∧
    oneCommit.headerLanded smallLog crashTwice = true ∧ afterCrashes.cache.disk smallLog.logstart 0 ≤ min smallLog.LOGSIZE (smallLog.nlog - 1) ∧ afterCrashes.log.lh.n ≤ min smallLog.LOGSIZE (smallLog.nlog - 1) ∧
    (∀ k, (∀ i < oneCommit.log.lh.n, oneCommit.log.lh.block i ≠ k) → (k < smallLog.logstart ∨ smallLog.logstart + smallLog.nlog ≤ k) →
      afterCrashes.cache.disk k = oneCommit.cache.disk k) ∧
    (afterCrashes.commit = none → afterCrashes.recovery = none → afterCrashes.cache.disk smallLog.logstart 0 = 0 ∧
      (oneCommit.headerLanded smallLog crashTwice = true → ∀ i < oneCommit.log.lh.n,
        afterCrashes.cache.disk (oneCommit.log.lh.block i) = oneCommit.cache.view oneCommit.log.dev (oneCommit.log.lh.block i)) ∧
      (oneCommit.headerLanded smallLog crashTwice = false → ∀ i < oneCommit.log.lh.n,
        afterCrashes.cache.disk (oneCommit.log.lh.block i) = oneCommit.cache.disk (oneCommit.log.lh.block i))) :=
  ⟨oneCommit_reachable, rfl, by decide, rfl, rfl, rfl,
    log_crash_atomic smallLog oneCommit_reachable rfl (by decide) (by rfl)
      (rfl : oneCommit.runs smallLog crashTwice = .ok afterCrashes)⟩

end Xv6.Log
