import Xv6.Log.Coordination

/-!
# The pins

`log_write` pins the buffer of each block it adds to the log, and `install_trans(0)` unpins
each once it has copied it home. Outside recovery the pinned buffers are therefore those of
the logged blocks not yet installed, one pin each: the cache cannot recycle them, `write_log`
copies each from its buffer, and when `commit()` returns nothing is pinned.
-/

namespace Xv6.Log

open Bio

variable {NBUF : Nat} (P : Params)

namespace Sys

/-- How many of the logged blocks the commit in progress has installed. -/
def installed (s : Sys NBUF) : Nat :=
  match s.commit with
  | some ⟨_, .install tail⟩ => tail
  | some ⟨_, .clear⟩ | some ⟨_, .finish⟩ => s.log.lh.n
  | _ => 0

/-- The logged blocks whose buffers stay pinned. -/
def pending (s : Sys NBUF) : List Nat :=
  if s.recovery.isSome then [] else (List.range' s.installed (s.log.lh.n - s.installed)).map s.log.lh.block

theorem mem_pending {s : Sys NBUF} (recovery : s.recovery = none) {i : Nat} (done : s.installed ≤ i)
    (below : i < s.log.lh.n) : s.log.lh.block i ∈ s.pending := by
  rw [pending, if_neg (by simp [recovery])]
  exact List.mem_map_of_mem _ (List.mem_range'_1.mpr ⟨done, by omega⟩)

theorem pending_idle {s : Sys NBUF} (commit : s.commit = none) (recovery : s.recovery = none) :
    s.pending = (List.range s.log.lh.n).map s.log.lh.block := by
  simp [pending, installed, commit, recovery, List.range_eq_range']

end Sys

theorem absorb_cases (lh : Logheader) (blockno : Nat) :
    (absorb lh blockno < lh.n ∧ lh.block (absorb lh blockno) = blockno) ∨
      (absorb lh blockno = lh.n ∧ ∀ i < lh.n, lh.block i ≠ blockno) := by
  unfold absorb
  cases found : (List.range lh.n).find? (fun i => lh.block i = blockno) with
  | some i =>
    have passes := List.find?_some found
    have below := List.mem_range.mp (List.mem_of_find?_eq_some found)
    exact .inl (by simpa [below] using passes)
  | none =>
    refine .inr ⟨rfl, fun i below same => ?_⟩
    simpa [same] using List.find?_eq_none.mp found i (List.mem_range.mpr below)

theorem beginOp_some {log log' : Log} (admitted : beginOp P log = some log') :
    log' = { log with outstanding := log.outstanding + 1 } := by
  unfold beginOp at admitted
  split at admitted
  · cases admitted
  · split at admitted <;> cases admitted; rfl

/-- What the log keeps of the cache and of the blocks it logs. -/
structure Logged (s : Sys NBUF) : Prop where
  sound : s.cache.Sound s.log.dev
  held : ∀ h ∈ s.cache.holds, s.InOp h.pid
  pins : (s.cache.pins.map fun x => (s.cache.bcache.buf x).blockno).Perm s.pending
  distinct : s.pending.Nodup
  fits : s.recovery = none → s.log.lh.n ≤ P.LOGSIZE ∧ s.log.lh.n ≤ s.log.size - 1

namespace Logged

variable {P} {s s' : Sys NBUF}

theorem boot (disk : Disk) (pid : Nat) : Logged P (Sys.boot P disk pid : Sys NBUF) where
  sound := ⟨.init disk, fun _ valid => by simp [Sys.boot, Cache.init, binit] at valid⟩
  held := by simp [Sys.boot, Cache.init]
  pins := by simp [Sys.boot, Cache.init, Sys.pending]
  distinct := by simp [Sys.boot, Sys.pending]
  fits := by simp [Sys.boot]

theorem idle (logged : Logged P s) (quiet : s.ops = []) : s.cache.holds = [] :=
  List.eq_nil_iff_forall_not_mem.mpr fun h mem => by
    obtain ⟨o, mem', -⟩ := logged.held h mem
    simp [quiet] at mem'

theorem unpinned (logged : Logged P s) (recovering : s.recovery.isSome) : s.cache.pins = [] := by
  have pins := logged.pins
  simp only [Sys.pending, recovering, ite_true] at pins
  exact List.map_eq_nil_iff.mp pins.eq_nil

theorem pinned_of_pending (logged : Logged P s) {k : Nat} (pending : k ∈ s.pending) :
    ∃ x ∈ s.cache.pins, (s.cache.bcache.buf x).blockno = k :=
  List.mem_map.mp (logged.pins.mem_iff.mpr pending)

theorem kept_of_keeps (logged : Logged P s) {c : Cache NBUF} (keeps : s.cache.Keeps c) :
    ∀ x ∈ s.cache.pins, (c.bcache.buf x).blockno = (s.cache.bcache.buf x).blockno :=
  fun x pinned => (keeps x (logged.sound.coherent.pos_of_pinned pinned)).2

theorem of_pending (logged : Logged P s) (sound : s'.cache.Sound s'.log.dev)
    (held : ∀ h ∈ s'.cache.holds, s'.InOp h.pid) (pins : s'.cache.pins = s.cache.pins)
    (kept : ∀ x ∈ s.cache.pins, (s'.cache.bcache.buf x).blockno = (s.cache.bcache.buf x).blockno)
    (pending : s'.pending = s.pending)
    (fits : s'.recovery = none → s'.log.lh.n ≤ P.LOGSIZE ∧ s'.log.lh.n ≤ s'.log.size - 1) : Logged P s' where
  sound := sound
  held := held
  pins := by rw [pins, pending, List.map_congr_left kept]; exact logged.pins
  distinct := pending ▸ logged.distinct
  fits := fits

theorem commitMove (logged : Logged P s) (recovery : s.recovery = none) {c : Cache NBUF}
    (sound : c.Sound s.log.dev) (idle : c.holds = []) (pins : c.pins = s.cache.pins) (keeps : s.cache.Keeps c)
    {r : Run} (pending : ({ s with cache := c, commit := some r } : Sys NBUF).pending = s.pending) :
    Logged P { s with cache := c, commit := some r } ∧ s.cache.Keeps c :=
  ⟨logged.of_pending sound (by simp [idle]) pins (logged.kept_of_keeps keeps) pending
    fun _ => logged.fits recovery, keeps⟩

theorem recoverMove (logged : Logged P s) (recovering : s.recovery.isSome) {c : Cache NBUF}
    (sound : c.Sound s.log.dev) (idle : c.holds = []) (pins : c.pins = s.cache.pins) (lh : Logheader) (r : Run) :
    Logged P { s with log := { s.log with lh }, cache := c, recovery := some r } where
  sound := sound
  held := by simp [idle]
  pins := by simp [pins, logged.unpinned recovering, Sys.pending]
  distinct := by simp [Sys.pending]
  fits := by simp

theorem install (logged : Logged P s) (recovery : s.recovery = none) (idle : s.cache.holds = [])
    {pid tail : Nat} (running : s.commit = some ⟨pid, .install tail⟩) (below : tail < s.log.lh.n) {c : Cache NBUF}
    (wrote : installTrans s.log false pid tail s.cache = .ok c) :
    Logged P { s with cache := c, commit := some ⟨pid, .install (tail + 1)⟩ } ∧ s.cache.Keeps c := by
  have pending : s.pending = s.log.lh.block tail ::
      (List.range' (tail + 1) (s.log.lh.n - (tail + 1))).map s.log.lh.block := by
    rw [Sys.pending, if_neg (by simp [recovery]), Sys.installed, running,
      show s.log.lh.n - tail = s.log.lh.n - (tail + 1) + 1 by omega, List.range'_succ]
    rfl
  obtain ⟨sound, idle', keeps, ⟨dbuf, pins, unpinned⟩, -, -⟩ := installTrans_spec logged.sound idle wrote fun _ =>
    logged.pinned_of_pending (Sys.mem_pending recovery (by simp [Sys.installed, running]) below)
  obtain ⟨pinnedD, blockD⟩ := unpinned rfl
  simp only [Bool.false_eq_true, ite_false] at pins
  have rest := ((List.perm_cons_erase pinnedD).map fun x => (s.cache.bcache.buf x).blockno).symm.trans logged.pins
  rw [pending, List.map_cons, blockD] at rest
  have distinct := logged.distinct
  rw [pending] at distinct
  have pending' : ({ s with cache := c, commit := some ⟨pid, .install (tail + 1)⟩ } : Sys NBUF).pending =
      (List.range' (tail + 1) (s.log.lh.n - (tail + 1))).map s.log.lh.block := by
    simp [Sys.pending, Sys.installed, recovery]
  refine ⟨⟨sound, by simp [idle'], ?_, pending' ▸ distinct.of_cons, fun _ => logged.fits recovery⟩, keeps⟩
  rw [pending', pins, List.map_congr_left fun y mem =>
    logged.kept_of_keeps keeps y (List.mem_of_mem_erase mem)]
  exact rest.cons_inv

theorem commitStep (logged : Logged P s) (coord : Coordinated P s) {r : Run} (running : s.commit = some r)
    (ran : s.commitStep r.pid r.stage = .ok s') : Logged P s' ∧ s.cache.Keeps s'.cache := by
  have recovery : s.recovery = none :=
    Option.not_isSome_iff_eq_none.mp fun some => by simp [(coord.booting some).2] at running
  have idle := logged.idle (coord.quiet (by simp [running]))
  have stay : s.cache.Keeps s.cache := fun _ _ => ⟨rfl, rfl⟩
  obtain ⟨pid, stage⟩ := r
  cases stage with
  | start =>
    cases ran
    refine logged.commitMove recovery logged.sound idle rfl stay ?_
    have empty := coord.drained
    split <;> simp_all [Sys.pending, Sys.installed]
  | writeLog tail =>
    simp only [Sys.commitStep] at ran
    split at ran
    · obtain ⟨c, wrote, rfl⟩ := Ends.bind_pure_eq_ok.mp ran
      obtain ⟨sound, idle', pins, keeps, -⟩ := writeLog_spec logged.sound idle wrote
      exact logged.commitMove recovery sound idle' pins keeps (by simp [Sys.pending, Sys.installed, running, recovery])
    · cases ran
      exact logged.commitMove recovery logged.sound idle rfl stay (by simp [Sys.pending, Sys.installed, running, recovery])
  | writeHead =>
    obtain ⟨c, wrote, rfl⟩ := Ends.bind_pure_eq_ok.mp ran
    obtain ⟨sound, idle', pins, keeps, -⟩ := writeHead_spec logged.sound idle wrote
    exact logged.commitMove recovery sound idle' pins keeps (by simp [Sys.pending, Sys.installed, running, recovery])
  | install tail =>
    simp only [Sys.commitStep] at ran
    split at ran
    next below =>
      obtain ⟨c, wrote, rfl⟩ := Ends.bind_pure_eq_ok.mp ran
      exact logged.install recovery idle running below wrote
    next done =>
      cases ran
      exact logged.commitMove recovery logged.sound idle rfl stay
        (by simp [Sys.pending, Sys.installed, running, recovery, Nat.sub_eq_zero_of_le (not_lt.mp done)])
  | clear =>
    obtain ⟨c, wrote, rfl⟩ := Ends.bind_pure_eq_ok.mp ran
    have sound : s.cache.Sound ({ s.log with lh := { s.log.lh with n := 0 } } : Log).dev := logged.sound
    obtain ⟨sound, idle', pins, keeps, -⟩ := writeHead_spec sound idle wrote
    exact ⟨logged.of_pending sound (by simp [idle']) pins (logged.kept_of_keeps keeps)
      (by simp [Sys.pending, Sys.installed, running, recovery]) (by simp), keeps⟩
  | finish =>
    cases ran
    have empty := coord.finished _ (.inl running) rfl
    exact ⟨logged.of_pending logged.sound (by simp [idle]) rfl (fun _ _ => rfl)
      (by simp [Sys.pending, Sys.installed, running, recovery, empty]) (by simp [empty]), stay⟩

theorem recoverStep (logged : Logged P s) (coord : Coordinated P s) {r : Run} (running : s.recovery = some r)
    (ran : s.recoverStep r.pid r.stage = .ok s') : Logged P s' := by
  have recovering : s.recovery.isSome := by simp [running]
  have idle := logged.idle (coord.booting recovering).1
  obtain ⟨pid, stage⟩ := r
  cases stage with
  | start =>
    obtain ⟨⟨lh, c⟩, read, ran⟩ := Ends.bind_eq_ok.mp ran
    simp only [Ends.pure_eq, Ends.ok.injEq] at ran
    subst ran
    obtain ⟨sound, idle', pins, -⟩ := readHead_spec logged.sound idle read
    exact logged.recoverMove recovering sound idle' pins lh _
  | install tail =>
    simp only [Sys.recoverStep] at ran
    split at ran
    · obtain ⟨c, wrote, rfl⟩ := Ends.bind_pure_eq_ok.mp ran
      obtain ⟨sound, idle', -, ⟨_, pins, -⟩, -⟩ := installTrans_spec logged.sound idle wrote nofun
      exact logged.recoverMove recovering sound idle' pins s.log.lh _
    · cases ran
      exact logged.recoverMove recovering logged.sound idle rfl s.log.lh _
  | clear =>
    obtain ⟨c, wrote, rfl⟩ := Ends.bind_pure_eq_ok.mp ran
    have sound : s.cache.Sound ({ s.log with lh := { s.log.lh with n := 0 } } : Log).dev := logged.sound
    obtain ⟨sound, idle', pins, -⟩ := writeHead_spec sound idle wrote
    exact logged.recoverMove recovering sound idle' pins _ _
  | finish =>
    cases ran
    have empty := coord.finished _ (.inr running) rfl
    have commit := (coord.booting recovering).2
    exact logged.of_pending logged.sound (by simp [idle]) rfl (fun _ _ => rfl)
      (by simp [Sys.pending, Sys.installed, running, commit, empty]) (by simp [empty])
  | writeLog | writeHead => cases ran

theorem step (logged : Logged P s) (coord : Coordinated P s) {e : Event NBUF} (allowed : s.Allowed e)
    (step : s.step P e = .ok s') :
    Logged P s' ∧ (s.recovery = none → (∀ pid, e ≠ .reboot pid) → s.cache.Keeps s'.cache) := by
  have stay : s.cache.Keeps s.cache := fun _ _ => ⟨rfl, rfl⟩
  cases e with
  | beginOp pid =>
    simp only [Sys.step] at step
    split at step
    next log admitted =>
      cases step
      cases beginOp_some P admitted
      refine ⟨logged.of_pending logged.sound (fun h mem => ?_) rfl (fun _ _ => rfl) rfl logged.fits, fun _ _ => stay⟩
      obtain ⟨o, mem', same⟩ := logged.held h mem
      exact ⟨o, List.mem_append_left _ mem', same⟩
    · cases step; exact ⟨logged, fun _ _ => stay⟩
  | endOp pid =>
    obtain ⟨commit, recovery, idle⟩ := coord.idle_of_inOp allowed.1
    simp only [Sys.step, endOp_ok idle, Ends.ok_bind, Ends.pure_eq, Ends.ok.injEq] at step
    subst step
    have held (h : Hold NBUF) (mem : h ∈ s.cache.holds) : ∃ o ∈ s.ops.eraseP (·.pid = pid), o.pid = h.pid := by
      obtain ⟨o, mem', same⟩ := logged.held h mem
      exact ⟨o, (List.mem_eraseP_of_neg (by simpa [same] using allowed.2 h mem)).mpr mem', same⟩
    refine ⟨?_, fun _ _ => stay⟩
    split <;> exact logged.of_pending logged.sound held rfl (fun _ _ => rfl)
      (by simp [Sys.pending, Sys.installed, commit, recovery]) (by simpa using logged.fits)
  | commit =>
    simp only [Sys.step] at step
    split at step
    next r running => exact (logged.commitStep coord running step).imp id fun keeps _ _ => keeps
    · cases step
  | recover =>
    simp only [Sys.step] at step
    split at step
    next r running => exact ⟨logged.recoverStep coord running step, fun none => by simp [none] at running⟩
    · cases step
  | bread pid dev blockno =>
    obtain ⟨⟨b, c⟩, got, step⟩ := Ends.bind_eq_ok.mp step
    simp only [Ends.pure_eq, Ends.ok.injEq] at step
    subst step
    obtain ⟨inside, rfl⟩ := allowed
    obtain ⟨sound, -, -, pins, holds, -, keeps, -⟩ := logged.sound.bread got
    refine ⟨logged.of_pending sound (fun h mem => ?_) pins (logged.kept_of_keeps keeps) rfl logged.fits,
      fun _ _ => keeps⟩
    rw [holds, List.mem_append, List.mem_singleton] at mem
    rcases mem with mem | rfl
    · exact logged.held h mem
    · exact inside
  | write pid b data =>
    obtain ⟨commit, recovery, -⟩ := coord.idle_of_inOp allowed.1
    obtain ⟨⟨log, c⟩, wrote, step⟩ := Ends.bind_eq_ok.mp step
    simp only [Ends.pure_eq, Ends.ok.injEq] at step
    subst step
    have held (h : Hold NBUF) (mem : h ∈ s.cache.holds) : ∃ o ∈ s.ops.map (fun o =>
        if o.pid = pid then o.note (s.cache.bcache.buf b).blockno else o), o.pid = h.pid := by
      obtain ⟨o, mem', same⟩ := logged.held h mem
      exact ⟨_, List.mem_map_of_mem _ mem', by split <;> exact same⟩
    have pending := Sys.pending_idle commit recovery
    have keeps (c' : Cache NBUF) (blocks : ∀ x, (c'.bcache.buf x).dev = (s.cache.bcache.buf x).dev ∧
        (c'.bcache.buf x).blockno = (s.cache.bcache.buf x).blockno) : s.cache.Keeps c' := fun x _ => blocks x
    have fits := logged.fits recovery
    obtain ⟨room, -, ⟨new, rfl, rfl⟩ | ⟨old, rfl, rfl⟩⟩ := logWrite_ok P wrote
    · -- a new block: one more entry, one more pin
      rw [Cache.modify_blockno] at new
      have fresh := (absorb_cases s.log.lh (s.cache.bcache.buf b).blockno).resolve_left fun found =>
        absurd new (Nat.ne_of_lt found.1)
      have extended : (List.range (s.log.lh.n + 1)).map (Function.update s.log.lh.block s.log.lh.n
          (s.cache.bcache.buf b).blockno) = s.pending ++ [(s.cache.bcache.buf b).blockno] := by
        rw [pending, List.range_succ, List.map_append, List.map_singleton, Function.update_same,
          List.map_congr_left fun i mem => Function.update_noteq (Nat.ne_of_lt (List.mem_range.mp mem)) _ _]
      refine ⟨⟨logged.sound.modify_bpin allowed.2 data, held, ?_, ?_, fun _ => ?_⟩,
        fun _ _ => keeps _ fun _ => ⟨Cache.bpin_dev.trans Cache.modify_dev, Cache.bpin_blockno.trans Cache.modify_blockno⟩⟩
      · rw [Sys.pending_idle (by exact commit) (by exact recovery)]
        dsimp only
        rw [Cache.modify_blockno, extended, Cache.bpin_pins, List.map_cons, List.map_congr_left fun _ _ =>
          Cache.bpin_blockno.trans Cache.modify_blockno, Cache.bpin_blockno, Cache.modify_blockno]
        exact (logged.pins.cons _).trans (List.perm_append_singleton _ _).symm
      · rw [Sys.pending_idle (by exact commit) (by exact recovery)]
        dsimp only
        rw [Cache.modify_blockno, extended, List.nodup_append]
        refine ⟨logged.distinct, List.nodup_singleton _, fun k mem same => ?_⟩
        rw [List.mem_singleton.mp same, pending] at mem
        obtain ⟨i, below, at_⟩ := List.mem_map.mp mem
        exact fresh.2 i (List.mem_range.mp below) at_
      · dsimp only
        omega
    · -- a block already logged: its buffer is the one pinned for it
      rw [Cache.modify_blockno] at old
      have found := (absorb_cases s.log.lh (s.cache.bcache.buf b).blockno).resolve_right fun missing => old missing.1
      have lh : Function.update s.log.lh.block (absorb s.log.lh (s.cache.bcache.buf b).blockno)
          (s.cache.bcache.buf b).blockno = s.log.lh.block := by
        have same := Function.update_eq_self (absorb s.log.lh (s.cache.bcache.buf b).blockno) s.log.lh.block
        rwa [found.2] at same
      obtain ⟨x, pinnedX, blockX⟩ := logged.pinned_of_pending
        (Sys.mem_pending recovery (by simp [Sys.installed, commit]) found.1)
      have coherent := logged.sound.coherent
      have posB := coherent.holding_pos allowed.2
      obtain ⟨validX, devX, -⟩ := logged.sound.counted (coherent.pos_of_pinned pinnedX)
      obtain ⟨validB, devB, -⟩ := logged.sound.counted posB
      obtain rfl : x = b := coherent.unique (.inr validX) (.inr validB) (devX.trans devB.symm) (blockX.trans found.2)
      refine ⟨logged.of_pending (logged.sound.modify allowed.2 pinnedX data) held rfl
        (fun _ _ => Cache.modify_blockno) (by simp [Sys.pending, Sys.installed, commit, recovery, lh])
        (by simpa [lh] using logged.fits), fun _ _ => keeps _ fun _ => ⟨Cache.modify_dev, Cache.modify_blockno⟩⟩
  | brelse pid b =>
    cases step
    refine ⟨logged.of_pending (logged.sound.brelse allowed.2) (fun h mem => logged.held h (List.mem_of_mem_eraseP mem))
      rfl (fun _ _ => Cache.brelse_blockno) rfl logged.fits, fun _ _ _ _ => ⟨Cache.brelse_dev, Cache.brelse_blockno⟩⟩
  | reboot pid =>
    cases step
    exact ⟨.boot _ _, fun _ crash => absurd rfl (crash pid)⟩

end Logged

theorem logged_reachable {s : Sys NBUF} (reach : Reachable P s) : Logged P s := by
  induction reach with
  | boot disk pid => exact .boot disk pid
  | step _ reach allowed step logged => exact (logged.step (coordinated_reachable P reach) allowed step).1

/-- Outside recovery each logged block not yet installed has one buffer pinned once, and no other. -/
theorem log_pins {s : Sys NBUF} (reach : Reachable P s) (running : s.recovery = none) :
    (∀ i, s.installed ≤ i → i < s.log.lh.n → ∃ x, (s.cache.bcache.buf x).valid ∧
      (s.cache.bcache.buf x).dev = s.log.dev ∧ (s.cache.bcache.buf x).blockno = s.log.lh.block i ∧
      s.cache.pins.count x = 1) ∧
    (∀ x ∈ s.cache.pins, ∃ i, s.installed ≤ i ∧ i < s.log.lh.n ∧
      (s.cache.bcache.buf x).dev = s.log.dev ∧ (s.cache.bcache.buf x).blockno = s.log.lh.block i) ∧
    (∀ e s', s.Allowed e → s.step P e = .ok s' → (∀ pid, e ≠ .reboot pid) → ∀ x ∈ s.cache.pins,
      (s'.cache.bcache.buf x).dev = (s.cache.bcache.buf x).dev ∧
      (s'.cache.bcache.buf x).blockno = (s.cache.bcache.buf x).blockno) ∧
    (∀ pid tail s', s.commit = some ⟨pid, .writeLog tail⟩ → tail < s.log.lh.n → s.step P .commit = .ok s' →
      ∀ x ∈ s.cache.pins, (s.cache.bcache.buf x).blockno = s.log.lh.block tail →
      s'.cache.disk (s.log.start + tail + 1) = (s.cache.bcache.buf x).data) ∧
    (∀ pid, s.commit = some ⟨pid, .finish⟩ →
      s.cache.pins = [] ∧ ∀ x, (s.cache.bcache.buf x).refcnt = s.cache.holds.countP (·.buf = x)) := by
  have logged := logged_reachable P reach
  have coord := coordinated_reachable P reach
  have coherent := logged.sound.coherent
  have pending : s.pending = (List.range' s.installed (s.log.lh.n - s.installed)).map s.log.lh.block := by
    simp [Sys.pending, running]
  have nodup : s.cache.pins.Nodup := (logged.pins.nodup_iff.mpr logged.distinct).of_map _
  refine ⟨fun i done below => ?_, fun x pinned => ?_, fun e s' allowed step crash x pinned => ?_,
    fun pid tail s' writing below step x pinned block => ?_, fun pid finishing => ?_⟩
  · obtain ⟨x, pinned, block⟩ := logged.pinned_of_pending (Sys.mem_pending running done below)
    obtain ⟨valid, dev, -⟩ := logged.sound.counted (coherent.pos_of_pinned pinned)
    exact ⟨x, valid, dev, block, List.count_eq_one_of_mem nodup pinned⟩
  · obtain ⟨-, dev, -⟩ := logged.sound.counted (coherent.pos_of_pinned pinned)
    have listed := logged.pins.mem_iff.mp (List.mem_map_of_mem (fun x => (s.cache.bcache.buf x).blockno) pinned)
    rw [pending] at listed
    obtain ⟨i, range, block⟩ := List.mem_map.mp listed
    have range := List.mem_range'_1.mp range
    exact ⟨i, range.1, by omega, dev, block.symm⟩
  · exact (logged.step coord allowed step).2 running crash x (coherent.pos_of_pinned pinned)
  · simp only [Sys.step, writing, Sys.commitStep, below, ite_true] at step
    obtain ⟨c, wrote, rfl⟩ := Ends.bind_pure_eq_ok.mp step
    obtain ⟨-, -, -, -, disk, -⟩ := writeLog_spec logged.sound (logged.idle (coord.quiet (by simp [writing]))) wrote
    obtain ⟨-, -, view⟩ := logged.sound.counted (coherent.pos_of_pinned pinned)
    rw [disk, Function.update_same, ← block, view]
  · have empty : s.pending = [] := by simp [pending, Sys.installed, finishing]
    have unpinned : s.cache.pins = [] := List.map_eq_nil_iff.mp (empty ▸ logged.pins).eq_nil
    exact ⟨unpinned, fun x => by rw [coherent.counted x, unpinned, List.count_nil, Nat.add_zero]⟩

theorem log_pins_full_log :
    Reachable smallLog fullLog ∧ fullLog.recovery = none ∧
    (∀ i, fullLog.installed ≤ i → i < fullLog.log.lh.n → ∃ x, (fullLog.cache.bcache.buf x).valid ∧
      (fullLog.cache.bcache.buf x).dev = fullLog.log.dev ∧ (fullLog.cache.bcache.buf x).blockno = fullLog.log.lh.block i ∧
      fullLog.cache.pins.count x = 1) ∧
    (∀ x ∈ fullLog.cache.pins, ∃ i, fullLog.installed ≤ i ∧ i < fullLog.log.lh.n ∧
      (fullLog.cache.bcache.buf x).dev = fullLog.log.dev ∧ (fullLog.cache.bcache.buf x).blockno = fullLog.log.lh.block i) ∧
    (∀ e s', fullLog.Allowed e → fullLog.step smallLog e = .ok s' → (∀ pid, e ≠ .reboot pid) → ∀ x ∈ fullLog.cache.pins,
      (s'.cache.bcache.buf x).dev = (fullLog.cache.bcache.buf x).dev ∧
      (s'.cache.bcache.buf x).blockno = (fullLog.cache.bcache.buf x).blockno) ∧
    (∀ pid tail s', fullLog.commit = some ⟨pid, .writeLog tail⟩ → tail < fullLog.log.lh.n → fullLog.step smallLog .commit = .ok s' →
      ∀ x ∈ fullLog.cache.pins, (fullLog.cache.bcache.buf x).blockno = fullLog.log.lh.block tail →
      s'.cache.disk (fullLog.log.start + tail + 1) = (fullLog.cache.bcache.buf x).data) ∧
    (∀ pid, fullLog.commit = some ⟨pid, .finish⟩ →
      fullLog.cache.pins = [] ∧ ∀ x, (fullLog.cache.bcache.buf x).refcnt = fullLog.cache.holds.countP (·.buf = x)) :=
  ⟨fullLog_reachable, rfl, log_pins smallLog fullLog_reachable rfl⟩

end Xv6.Log
