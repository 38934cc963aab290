import Xv6.Log.Model

/-!
# The stages through the cache

What `read_head`, `write_head` and one pass of `write_log` or `install_trans` do, stated once
each from the cache's own lemmas: they panic only in `bget`, keep the list whole, and write
one block, the header or the block the pass is for.
-/

namespace Xv6.Log

open Bio

variable {NBUF : Nat} {log : Log} {pid tail : Nat} {c c' : Cache NBUF}

/-! ### Panics -/

theorem readHead_panics (log : Log) (pid : Nat) (c : Cache NBUF) :
    (readHead log pid c).PanicsWith "bget: no buffers" :=
  .bind (Cache.bread_panics _ _ _ _) fun ⟨_, _⟩ => .ok _

theorem writeHead_panics (log : Log) (pid : Nat) (c : Cache NBUF) :
    (writeHead log pid c).PanicsWith "bget: no buffers" :=
  .bind (Cache.bread_panics _ _ _ _) fun ⟨_, _⟩ => .ok _

theorem writeLog_panics (log : Log) (pid tail : Nat) (c : Cache NBUF) :
    (writeLog log pid tail c).PanicsWith "bget: no buffers" :=
  .bind (Cache.bread_panics _ _ _ _) fun ⟨_, _⟩ => .bind (Cache.bread_panics _ _ _ _) fun ⟨_, _⟩ => .ok _

theorem installTrans_panics (log : Log) (recovering : Bool) (pid tail : Nat) (c : Cache NBUF) :
    (installTrans log recovering pid tail c).PanicsWith "bget: no buffers" :=
  .bind (Cache.bread_panics _ _ _ _) fun ⟨_, _⟩ => .bind (Cache.bread_panics _ _ _ _) fun ⟨_, _⟩ => .ok _

namespace Sys

variable (P : Params)

theorem commitStep_panics (s : Sys NBUF) (pid : Nat) (stage : Stage) :
    (s.commitStep pid stage).PanicsWith "bget: no buffers" := by
  cases stage with
  | start | finish => exact .ok _
  | writeLog =>
    simp only [commitStep]
    split
    · exact .bind (writeLog_panics _ _ _ _) fun _ => .ok _
    · exact .ok _
  | install =>
    simp only [commitStep]
    split
    · exact .bind (installTrans_panics _ _ _ _ _) fun _ => .ok _
    · exact .ok _
  | writeHead | clear => exact .bind (writeHead_panics _ _ _) fun _ => .ok _

theorem recoverStep_panics (s : Sys NBUF) (pid : Nat) (stage : Stage) :
    (s.recoverStep pid stage).PanicsWith "bget: no buffers" := by
  cases stage with
  | start => exact .bind (readHead_panics _ _ _) fun ⟨_, _⟩ => .ok _
  | install =>
    simp only [recoverStep]
    split
    · exact .bind (installTrans_panics _ _ _ _ _) fun _ => .ok _
    · exact .ok _
  | clear => exact .bind (writeHead_panics _ _ _) fun _ => .ok _
  | finish => exact .ok _
  | writeLog | writeHead => intro _ h; cases h

end Sys

/-! ### Which block each stage writes -/

theorem readHead_lined {lh : Logheader} (lined : c.bcache.Lined) (ran : readHead log pid c = .ok (lh, c')) :
    c'.bcache.Lined ∧ c'.disk = c.disk := by
  obtain ⟨⟨buf, c₁⟩, got, ran⟩ := Ends.bind_eq_ok.mp ran
  simp only [Ends.pure_eq, Ends.ok.injEq, Prod.mk.injEq] at ran
  obtain ⟨-, rfl⟩ := ran
  obtain ⟨lined₁, disk₁, -⟩ := lined.cache_bread got
  exact ⟨lined₁.cache_brelse, by simp [disk₁]⟩

theorem writeHead_lined (lined : c.bcache.Lined) (ran : writeHead log pid c = .ok c') :
    c'.bcache.Lined ∧ ∃ data, c'.disk = Function.update c.disk log.start (writeHeader log.lh data) := by
  obtain ⟨⟨buf, c₁⟩, got, ran⟩ := Ends.bind_eq_ok.mp ran
  simp only [Ends.pure_eq, Ends.ok.injEq] at ran
  subst ran
  obtain ⟨lined₁, disk₁, block₁, -⟩ := lined.cache_bread got
  exact ⟨(lined₁.cache_modify _).cache_bwrite.cache_brelse, (c₁.bcache.buf buf).data, by simp [disk₁, block₁]⟩

theorem writeLog_lined (lined : c.bcache.Lined) (ran : writeLog log pid tail c = .ok c') :
    c'.bcache.Lined ∧ ∃ data, c'.disk = Function.update c.disk (log.start + tail + 1) data := by
  obtain ⟨⟨toBuf, c₁⟩, got₁, ran⟩ := Ends.bind_eq_ok.mp ran
  obtain ⟨⟨fromBuf, c₂⟩, got₂, ran⟩ := Ends.bind_eq_ok.mp ran
  simp only [Ends.pure_eq, Ends.ok.injEq] at ran
  subst ran
  obtain ⟨lined₁, disk₁, block₁, counted₁⟩ := lined.cache_bread got₁
  obtain ⟨lined₂, disk₂, -⟩ := lined₁.cache_bread got₂
  have kept := (lined₁.bread_block_kept got₂ toBuf counted₁).2
  exact ⟨(lined₂.cache_modify _).cache_bwrite.cache_brelse.cache_brelse, (c₂.bcache.buf fromBuf).data,
    by simp [disk₁, disk₂, kept, block₁]⟩

theorem installTrans_lined {recovering : Bool} (lined : c.bcache.Lined)
    (ran : installTrans log recovering pid tail c = .ok c') :
    c'.bcache.Lined ∧ ∃ data, c'.disk = Function.update c.disk (log.lh.block tail) data := by
  obtain ⟨⟨lbuf, c₁⟩, got₁, ran⟩ := Ends.bind_eq_ok.mp ran
  obtain ⟨⟨dbuf, c₂⟩, got₂, ran⟩ := Ends.bind_eq_ok.mp ran
  simp only [Ends.pure_eq, Ends.ok.injEq] at ran
  subst ran
  obtain ⟨lined₁, disk₁, -⟩ := lined.cache_bread got₁
  obtain ⟨lined₂, disk₂, block₂, -⟩ := lined₁.cache_bread got₂
  have lined₃ := (lined₂.cache_modify (b := dbuf) (c₂.bcache.buf lbuf).data).cache_bwrite (b := dbuf)
  cases recovering
  · exact ⟨lined₃.cache_bunpin.cache_brelse.cache_brelse, (c₂.bcache.buf lbuf).data, by simp [disk₁, disk₂, block₂]⟩
  · exact ⟨lined₃.cache_brelse.cache_brelse, (c₂.bcache.buf lbuf).data, by simp [disk₁, disk₂, block₂]⟩

/-! ### What each stage does, through a sound cache

`commit()` and `recover_from_log()` hold no buffer between their stages, and each stage
releases what it reads: it ends with nothing held, and it writes the view it read. -/

section

variable (sound : c.Sound log.dev) (idle : c.holds = [])
include sound idle

theorem readHead_spec {lh : Logheader} (ran : readHead log pid c = .ok (lh, c')) :
    c'.Sound log.dev ∧ c'.holds = [] ∧ c'.pins = c.pins ∧ c'.disk = c.disk ∧ c'.view = c.view ∧
      lh = readHeader (c.view log.dev log.start) log.lh := by
  obtain ⟨⟨buf, c₁⟩, got, ran⟩ := Ends.bind_eq_ok.mp ran
  simp only [Ends.pure_eq, Ends.ok.injEq, Prod.mk.injEq] at ran
  obtain ⟨rfl, rfl⟩ := ran
  obtain ⟨sound₁, view₁, disk₁, pins₁, holds₁, block₁, -⟩ := sound.bread got
  have holding := Cache.bread_holding got
  obtain ⟨-, -, data⟩ := sound₁.counted (sound₁.coherent.holding_pos holding)
  refine ⟨sound₁.brelse holding, by simp [holds₁, idle, List.eraseP_cons], by simp [pins₁], by simp [disk₁],
    by simp [view₁], ?_⟩
  rw [← data, block₁, view₁]

theorem writeHead_spec (ran : writeHead log pid c = .ok c') :
    c'.Sound log.dev ∧ c'.holds = [] ∧ c'.pins = c.pins ∧ c.Keeps c' ∧
      c'.disk = Function.update c.disk log.start (writeHeader log.lh (c.view log.dev log.start)) ∧
      c'.view log.dev =
        Function.update (c.view log.dev) log.start (writeHeader log.lh (c.view log.dev log.start)) := by
  obtain ⟨⟨buf, c₁⟩, got, ran⟩ := Ends.bind_eq_ok.mp ran
  simp only [Ends.pure_eq, Ends.ok.injEq] at ran
  subst ran
  obtain ⟨sound₁, view₁, disk₁, pins₁, holds₁, block₁, kept₁, -⟩ := sound.bread got
  have holding := Cache.bread_holding got
  obtain ⟨-, -, data⟩ := sound₁.counted (sound₁.coherent.holding_pos holding)
  obtain ⟨sound₂, view₂, disk₂⟩ := sound₁.write holding (writeHeader log.lh (c₁.bcache.buf buf).data)
  refine ⟨sound₂.brelse holding, by simp [holds₁, idle, List.eraseP_cons], by simp [pins₁], fun x pos => ?_, ?_, ?_⟩
  · simp only [Cache.brelse_dev, Cache.brelse_blockno, Cache.bwrite_bcache, Cache.modify_dev, Cache.modify_blockno]
    exact kept₁ x pos
  · rw [Cache.brelse_disk, disk₂, disk₁, block₁, ← data, block₁, view₁]
  · rw [Cache.brelse_view, view₂, view₁, block₁, ← data, block₁, view₁]

theorem writeLog_spec (ran : writeLog log pid tail c = .ok c') :
    c'.Sound log.dev ∧ c'.holds = [] ∧ c'.pins = c.pins ∧ c.Keeps c' ∧
      c'.disk = Function.update c.disk (log.start + tail + 1) (c.view log.dev (log.lh.block tail)) ∧
      c'.view log.dev =
        Function.update (c.view log.dev) (log.start + tail + 1) (c.view log.dev (log.lh.block tail)) := by
  obtain ⟨⟨toBuf, c₁⟩, got₁, ran⟩ := Ends.bind_eq_ok.mp ran
  obtain ⟨⟨fromBuf, c₂⟩, got₂, ran⟩ := Ends.bind_eq_ok.mp ran
  simp only [Ends.pure_eq, Ends.ok.injEq] at ran
  subst ran
  obtain ⟨sound₁, view₁, disk₁, pins₁, holds₁, block₁, kept₁, grows₁⟩ := sound.bread got₁
  obtain ⟨sound₂, view₂, disk₂, pins₂, holds₂, block₂, kept₂, -⟩ := sound₁.bread got₂
  have holdingTo : c₂.Holding pid toBuf := ⟨⟨pid, toBuf, log.dev, log.start + tail + 1⟩, by simp [holds₂, holds₁], rfl, rfl⟩
  have holdingFrom := Cache.bread_holding got₂
  have blockTo : (c₂.bcache.buf toBuf).blockno = log.start + tail + 1 :=
    (kept₂ toBuf (sound₁.coherent.holding_pos (Cache.bread_holding got₁))).2.trans block₁
  obtain ⟨-, -, dataFrom⟩ := sound₂.counted (sound₂.coherent.holding_pos holdingFrom)
  rw [block₂, view₂, view₁] at dataFrom
  obtain ⟨sound₃, view₃, disk₃⟩ := sound₂.write holdingTo (c₂.bcache.buf fromBuf).data
  have holdingTo₃ : (((c₂.modify toBuf (c₂.bcache.buf fromBuf).data).bwrite toBuf).brelse pid fromBuf).Holding
      pid toBuf := by
    by_cases same : toBuf = fromBuf
    · subst same
      exact ⟨⟨pid, toBuf, log.dev, log.lh.block tail⟩, by simp [holds₂, holds₁, idle, List.eraseP_cons], rfl, rfl⟩
    · exact ⟨⟨pid, toBuf, log.dev, log.start + tail + 1⟩, by simp [holds₂, holds₁, idle, List.eraseP_cons, same], rfl, rfl⟩
  refine ⟨(sound₃.brelse holdingFrom).brelse holdingTo₃, ?_, by simp [pins₂, pins₁], fun x pos => ?_, ?_, ?_⟩
  · by_cases same : toBuf = fromBuf <;> simp [holds₂, holds₁, idle, List.eraseP_cons, same]
  · simp only [Cache.brelse_dev, Cache.brelse_blockno, Cache.bwrite_bcache, Cache.modify_dev, Cache.modify_blockno]
    exact (kept₁.trans kept₂ grows₁) x pos
  · rw [Cache.brelse_disk, Cache.brelse_disk, disk₃, disk₂, disk₁, blockTo, ← dataFrom]
  · rw [Cache.brelse_view, Cache.brelse_view, view₃, view₂, view₁, blockTo, ← dataFrom]

theorem installTrans_spec {recovering : Bool} (ran : installTrans log recovering pid tail c = .ok c')
    (pinned : recovering = false → ∃ x ∈ c.pins, (c.bcache.buf x).blockno = log.lh.block tail) :
    c'.Sound log.dev ∧ c'.holds = [] ∧ c.Keeps c' ∧
      (∃ dbuf, c'.pins = (if recovering then c.pins else c.pins.erase dbuf) ∧
        (recovering = false → dbuf ∈ c.pins ∧ (c.bcache.buf dbuf).blockno = log.lh.block tail)) ∧
      c'.disk = Function.update c.disk (log.lh.block tail) (c.view log.dev (log.start + tail + 1)) ∧
      c'.view log.dev =
        Function.update (c.view log.dev) (log.lh.block tail) (c.view log.dev (log.start + tail + 1)) := by
  obtain ⟨⟨lbuf, c₁⟩, got₁, ran⟩ := Ends.bind_eq_ok.mp ran
  obtain ⟨⟨dbuf, c₂⟩, got₂, ran⟩ := Ends.bind_eq_ok.mp ran
  simp only [Ends.pure_eq, Ends.ok.injEq] at ran
  subst ran
  obtain ⟨sound₁, view₁, disk₁, pins₁, holds₁, block₁, kept₁, grows₁⟩ := sound.bread got₁
  obtain ⟨sound₂, view₂, disk₂, pins₂, holds₂, block₂, kept₂, -⟩ := sound₁.bread got₂
  have holdingL : c₂.Holding pid lbuf := ⟨⟨pid, lbuf, log.dev, log.start + tail + 1⟩, by simp [holds₂, holds₁], rfl, rfl⟩
  have holdingD := Cache.bread_holding got₂
  have blockL : (c₂.bcache.buf lbuf).blockno = log.start + tail + 1 :=
    (kept₂ lbuf (sound₁.coherent.holding_pos (Cache.bread_holding got₁))).2.trans block₁
  obtain ⟨-, -, dataL⟩ := sound₂.counted (sound₂.coherent.holding_pos holdingL)
  rw [blockL, view₂, view₁] at dataL
  obtain ⟨sound₃, view₃, disk₃⟩ := sound₂.write holdingD (c₂.bcache.buf lbuf).data
  -- both ways on, the two releases
  have release (X : Cache NBUF) (soundX : X.Sound log.dev) (holdsX : X.holds = c₂.holds)
      (blocks : ∀ x, (X.bcache.buf x).dev = (c₂.bcache.buf x).dev ∧
        (X.bcache.buf x).blockno = (c₂.bcache.buf x).blockno)
      (diskX : X.disk = ((c₂.modify dbuf (c₂.bcache.buf lbuf).data).bwrite dbuf).disk)
      (viewX : X.view = ((c₂.modify dbuf (c₂.bcache.buf lbuf).data).bwrite dbuf).view) :
      ((X.brelse pid lbuf).brelse pid dbuf).Sound log.dev ∧ ((X.brelse pid lbuf).brelse pid dbuf).holds = [] ∧
        c.Keeps ((X.brelse pid lbuf).brelse pid dbuf) ∧
        ((X.brelse pid lbuf).brelse pid dbuf).disk =
          Function.update c.disk (log.lh.block tail) (c.view log.dev (log.start + tail + 1)) ∧
        ((X.brelse pid lbuf).brelse pid dbuf).view log.dev =
          Function.update (c.view log.dev) (log.lh.block tail) (c.view log.dev (log.start + tail + 1)) := by
    refine ⟨(soundX.brelse ⟨⟨pid, lbuf, log.dev, log.start + tail + 1⟩, by simp [holdsX, holds₂, holds₁], rfl, rfl⟩).brelse
        ⟨⟨pid, dbuf, log.dev, log.lh.block tail⟩, by simp [holdsX, holds₂, holds₁, idle, List.eraseP_cons], rfl, rfl⟩,
      by simp [holdsX, holds₂, holds₁, idle, List.eraseP_cons], fun x pos => ?_, ?_, ?_⟩
    · simp only [Cache.brelse_dev, Cache.brelse_blockno, blocks]
      exact (kept₁.trans kept₂ grows₁) x pos
    · rw [Cache.brelse_disk, Cache.brelse_disk, diskX, disk₃, disk₂, disk₁, block₂, ← dataL]
    · rw [Cache.brelse_view, Cache.brelse_view, viewX, view₃, view₂, view₁, block₂, ← dataL]
  cases recovering
  · obtain ⟨x, pinnedX, blockX⟩ := pinned rfl
    have pos := sound.coherent.pos_of_pinned pinnedX
    obtain ⟨-, devX, -⟩ := sound.counted pos
    obtain rfl : dbuf = x := sound₁.coherent.bread_live got₂ (.inl (Nat.lt_of_lt_of_le pos (grows₁ x)))
      ⟨(kept₁ x pos).1.trans devX, (kept₁ x pos).2.trans blockX⟩
    obtain ⟨sound', holds', keeps', disk', view'⟩ := release _
      (sound₃.bunpin holdingD (by simp [pins₂, pins₁, pinnedX]) (by simp [Function.update_apply])) rfl
      (fun _ => ⟨by simp only [Cache.bunpin_dev, Cache.bwrite_bcache, Cache.modify_dev], by simp only [Cache.bunpin_blockno, Cache.bwrite_bcache,
        Cache.modify_blockno]⟩) rfl (by simp)
    exact ⟨sound', holds', keeps', ⟨dbuf, by simp [pins₂, pins₁], fun _ => ⟨pinnedX, blockX⟩⟩, disk', view'⟩
  · obtain ⟨sound', holds', keeps', disk', view'⟩ := release _ sound₃ rfl
      (fun _ => ⟨by simp only [Cache.bwrite_bcache, Cache.modify_dev], by simp only [Cache.bwrite_bcache, Cache.modify_blockno]⟩) rfl rfl
    exact ⟨sound', holds', keeps', ⟨dbuf, by simp [pins₂, pins₁], nofun⟩, disk', view'⟩

end

end Xv6.Log
