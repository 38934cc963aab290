import Xv6.Bio.Cache

/-!
# What the cache shows of the disk

`Cache.view dev blockno` is what `bread(dev, blockno)` hands back: the contents of the valid
buffer holding the block, or else the block on the disk. Each call of `bio.c` is described
here once, by what it does to the buffers, the view and the disk, so that the log's proofs
never unfold `bget`. `Tidy` is the state the log keeps the cache in: every valid buffer is of
the log's device, and one that differs from its block on disk is pinned.
-/

namespace Xv6.Bio

variable {NBUF : Nat}

namespace Cache

/-- What `bread(dev, blockno)` reads. -/
def view (c : Cache NBUF) (dev blockno : Nat) : Block :=
  match (List.finRange NBUF).find? fun b => (c.bcache.buf b).valid && c.bcache.isBlock dev blockno b with
  | some b => (c.bcache.buf b).data
  | none => c.disk blockno

/-- Every valid buffer is of device `dev`, and holds what its block holds on disk unless it is pinned. -/
def Tidy (dev : Nat) (c : Cache NBUF) : Prop :=
  ∀ b, (c.bcache.buf b).valid → (c.bcache.buf b).dev = dev ∧
    ((c.bcache.buf b).data = c.disk (c.bcache.buf b).blockno ∨ b ∈ c.pins)

variable {c : Cache NBUF} {pid : Nat} {b : Fin NBUF}

@[simp] theorem bwrite_bcache : (c.bwrite b).bcache = c.bcache := rfl
@[simp] theorem bwrite_disk : (c.bwrite b).disk = Function.update c.disk (c.bcache.buf b).blockno (c.bcache.buf b).data := rfl
@[simp] theorem bwrite_holds : (c.bwrite b).holds = c.holds := rfl
@[simp] theorem bwrite_pins : (c.bwrite b).pins = c.pins := rfl
@[simp] theorem modify_disk {data : Block} : (c.modify b data).disk = c.disk := rfl
@[simp] theorem modify_holds {data : Block} : (c.modify b data).holds = c.holds := rfl
@[simp] theorem modify_pins {data : Block} : (c.modify b data).pins = c.pins := rfl
@[simp] theorem modify_buf {data : Block} :
    (c.modify b data).bcache.buf = (c.bcache.setBuf b fun buf => { buf with data := data }).buf := rfl
@[simp] theorem brelse_disk : (c.brelse pid b).disk = c.disk := rfl
@[simp] theorem brelse_pins : (c.brelse pid b).pins = c.pins := rfl
@[simp] theorem brelse_holds :
    (c.brelse pid b).holds = c.holds.eraseP fun h => h.pid = pid ∧ h.buf = b := rfl
@[simp] theorem brelse_buf : (c.brelse pid b).bcache.buf =
    (c.bcache.setBuf b fun buf => { buf with refcnt := buf.refcnt - 1 }).buf := Bio.brelse_buf _ _
@[simp] theorem bpin_disk : (c.bpin b).disk = c.disk := rfl
@[simp] theorem bpin_pins : (c.bpin b).pins = b :: c.pins := rfl
@[simp] theorem bpin_holds : (c.bpin b).holds = c.holds := rfl
@[simp] theorem bpin_buf :
    (c.bpin b).bcache.buf = (c.bcache.setBuf b fun buf => { buf with refcnt := buf.refcnt + 1 }).buf := rfl
@[simp] theorem bunpin_disk : (c.bunpin b).disk = c.disk := rfl
@[simp] theorem bunpin_pins : (c.bunpin b).pins = c.pins.erase b := rfl
@[simp] theorem bunpin_holds : (c.bunpin b).holds = c.holds := rfl
@[simp] theorem bunpin_buf :
    (c.bunpin b).bcache.buf = (c.bcache.setBuf b fun buf => { buf with refcnt := buf.refcnt - 1 }).buf := rfl

section
variable {x : Fin NBUF} {data : Block}

/-! Only `bget` moves a buffer to another block. These are not `simp` lemmas: `simp` first
rewrites the buffers with the lemmas above. -/

theorem modify_dev : ((c.modify b data).bcache.buf x).dev = (c.bcache.buf x).dev := by
  by_cases xb : x = b <;> simp [xb]
theorem modify_blockno : ((c.modify b data).bcache.buf x).blockno = (c.bcache.buf x).blockno := by
  by_cases xb : x = b <;> simp [xb]
theorem brelse_dev : ((c.brelse pid b).bcache.buf x).dev = (c.bcache.buf x).dev := by
  by_cases xb : x = b <;> simp [xb]
theorem brelse_blockno : ((c.brelse pid b).bcache.buf x).blockno = (c.bcache.buf x).blockno := by
  by_cases xb : x = b <;> simp [xb]
theorem bpin_dev : ((c.bpin b).bcache.buf x).dev = (c.bcache.buf x).dev := by
  by_cases xb : x = b <;> simp [xb]
theorem bpin_blockno : ((c.bpin b).bcache.buf x).blockno = (c.bcache.buf x).blockno := by
  by_cases xb : x = b <;> simp [xb]
theorem bunpin_dev : ((c.bunpin b).bcache.buf x).dev = (c.bcache.buf x).dev := by
  by_cases xb : x = b <;> simp [xb]
theorem bunpin_blockno : ((c.bunpin b).bcache.buf x).blockno = (c.bcache.buf x).blockno := by
  by_cases xb : x = b <;> simp [xb]

end

theorem view_congr {c' : Cache NBUF} (disk : c'.disk = c.disk)
    (same : ∀ x, (c'.bcache.buf x).valid = (c.bcache.buf x).valid ∧ (c'.bcache.buf x).dev = (c.bcache.buf x).dev ∧
      (c'.bcache.buf x).blockno = (c.bcache.buf x).blockno ∧ (c'.bcache.buf x).data = (c.bcache.buf x).data) :
    c'.view = c.view := by
  funext dev blockno
  have find : (fun x => (c'.bcache.buf x).valid && c'.bcache.isBlock dev blockno x) =
      fun x => (c.bcache.buf x).valid && c.bcache.isBlock dev blockno x := by
    funext x; simp [Bcache.isBlock, same x]
  rw [view, view, find, disk]
  cases (List.finRange NBUF).find? fun x => (c.bcache.buf x).valid && c.bcache.isBlock dev blockno x <;>
    simp [(same _).2.2.2]

theorem view_of_refcnt {c' : Cache NBUF} (disk : c'.disk = c.disk) (f : Buf → Buf)
    (buf : c'.bcache.buf = (c.bcache.setBuf b f).buf) (keeps : ∀ buf, (f buf).valid = buf.valid ∧
      (f buf).dev = buf.dev ∧ (f buf).blockno = buf.blockno ∧ (f buf).data = buf.data) :
    c'.view = c.view :=
  view_congr disk fun x => by
    by_cases xb : x = b
    · subst xb; simpa [buf] using keeps _
    · simp [buf, xb]

@[simp] theorem brelse_view : (c.brelse pid b).view = c.view :=
  view_of_refcnt rfl _ brelse_buf fun _ => ⟨rfl, rfl, rfl, rfl⟩

@[simp] theorem bpin_view : (c.bpin b).view = c.view :=
  view_of_refcnt rfl _ bpin_buf fun _ => ⟨rfl, rfl, rfl, rfl⟩

@[simp] theorem bunpin_view : (c.bunpin b).view = c.view :=
  view_of_refcnt rfl _ bunpin_buf fun _ => ⟨rfl, rfl, rfl, rfl⟩

theorem view_of_none {dev blockno : Nat}
    (none : ∀ x, (c.bcache.buf x).valid → c.bcache.isBlock dev blockno x = false) :
    c.view dev blockno = c.disk blockno := by
  have : (List.finRange NBUF).find? (fun x => (c.bcache.buf x).valid && c.bcache.isBlock dev blockno x) =
      Option.none :=
    List.find?_eq_none.mpr fun x _ => by cases valid : (c.bcache.buf x).valid <;> simp [valid, none x]
  rw [view, this]

theorem view_eq_at {c' : Cache NBUF} {d j : Nat} (disk : c'.disk j = c.disk j)
    (blocks : ∀ x, (c'.bcache.buf x).dev = (c.bcache.buf x).dev ∧
      (c'.bcache.buf x).blockno = (c.bcache.buf x).blockno)
    (agree : ∀ x, (c.bcache.buf x).dev = d → (c.bcache.buf x).blockno = j →
      (c'.bcache.buf x).valid = (c.bcache.buf x).valid ∧ (c'.bcache.buf x).data = (c.bcache.buf x).data) :
    c'.view d j = c.view d j := by
  have find : (fun x => (c'.bcache.buf x).valid && c'.bcache.isBlock d j x) =
      fun x => (c.bcache.buf x).valid && c.bcache.isBlock d j x := by
    funext x
    by_cases holds : (c.bcache.buf x).dev = d ∧ (c.bcache.buf x).blockno = j
    · simp [Bcache.isBlock, (blocks x).1, (blocks x).2, holds, (agree x holds.1 holds.2).1]
    · simp [Bcache.isBlock, (blocks x).1, (blocks x).2, holds]
  rw [view, view, find, disk]
  cases found : (List.finRange NBUF).find? fun x => (c.bcache.buf x).valid && c.bcache.isBlock d j x with
  | none => rfl
  | some x =>
    have holds := List.find?_some found
    simp only [Bool.and_eq_true, Bcache.isBlock, decide_eq_true_eq] at holds
    exact (agree x holds.2.1 holds.2.2).2

end Cache

theorem Bcache.setBuf_congr {bc : Bcache NBUF} {b : Fin NBUF} {f g : Buf → Buf}
    (same : f (bc.buf b) = g (bc.buf b)) : bc.setBuf b f = bc.setBuf b g := by
  simp [Bcache.setBuf, same]

/-! ### Reading through a coherent cache -/

namespace Coherent

variable {c c' : Cache NBUF} {pid dev blockno : Nat} {b : Fin NBUF}

theorem view_of_valid (coherent : Coherent c) (valid : (c.bcache.buf b).valid) :
    c.view (c.bcache.buf b).dev (c.bcache.buf b).blockno = (c.bcache.buf b).data := by
  have found : (List.finRange NBUF).find? (fun x => (c.bcache.buf x).valid &&
      c.bcache.isBlock (c.bcache.buf b).dev (c.bcache.buf b).blockno x) = some b :=
    find?_unique (List.mem_finRange b) (by simp [valid, Bcache.isBlock]) fun y _ passes => by
      simp only [Bool.and_eq_true, Bcache.isBlock, decide_eq_true_eq] at passes
      exact coherent.unique (.inr passes.1) (.inr valid) passes.2.1 passes.2.2
  rw [Cache.view, found]

theorem view_of_first (coherent : Coherent c) (first : c.bcache.order.find? (c.bcache.isBlock dev blockno) = some b) :
    c.view dev blockno = if (c.bcache.buf b).valid then (c.bcache.buf b).data else c.disk blockno := by
  have block := List.find?_some first
  simp only [Bcache.isBlock, decide_eq_true_eq] at block
  split
  · rw [← block.1, ← block.2]; exact coherent.view_of_valid ‹_›
  · refine Cache.view_of_none fun x valid => ?_
    by_contra passes
    simp only [Bcache.isBlock, Bool.not_eq_false, decide_eq_true_eq] at passes
    have firstX := coherent.first x (.inr valid)
    rw [Bcache.First, passes.1, passes.2, first] at firstX
    cases firstX
    contradiction

theorem bread_eq (coherent : Coherent c) (got : c.bread pid dev blockno = .ok (b, c')) :
    c' = { c with
      bcache := c.bcache.setBuf b fun buf => { buf with
        valid := true, dev := dev, blockno := blockno, refcnt := buf.refcnt + 1, data := c.view dev blockno }
      holds := c.holds ++ [⟨pid, b, dev, blockno⟩] } ∧
    (c.bcache.order.find? (c.bcache.isBlock dev blockno) = some b ∨
      (∀ x, c.bcache.isBlock dev blockno x = false) ∧ (c.bcache.buf b).refcnt = 0) := by
  obtain ⟨bc, fetched, rfl⟩ := Cache.bread_ok got
  obtain ⟨⟨b₀, bc₀⟩, claimed, filled⟩ := Ends.bind_eq_ok.mp fetched
  rw [coherent.lined.bget_eq] at claimed
  cases hit : c.bcache.order.find? (c.bcache.isBlock dev blockno) with
  | some b₁ =>
    rw [hit] at claimed
    cases claimed
    have block := List.find?_some hit
    simp only [Bcache.isBlock, decide_eq_true_eq] at block
    have view := coherent.view_of_first hit
    dsimp only at filled
    split at filled <;> simp only [Ends.pure_eq, Ends.ok.injEq, Prod.mk.injEq] at filled <;>
      obtain ⟨rfl, rfl⟩ := filled
    · rename_i invalid
      have invalid : (c.bcache.buf b₀).valid = false := by simpa using invalid
      refine ⟨?_, .inl rfl⟩
      rw [Bcache.setBuf_setBuf]
      congr 1
      exact Bcache.setBuf_congr (by simp [view, invalid, block.1, block.2])
    · rename_i valid
      have valid : (c.bcache.buf b₀).valid = true := by simpa using valid
      refine ⟨?_, .inl rfl⟩
      congr 1
      exact Bcache.setBuf_congr (by simp [view, valid, block.1, block.2])
  | none =>
    rw [hit] at claimed
    have missing (x : Fin NBUF) : c.bcache.isBlock dev blockno x = false := by
      simpa using List.find?_eq_none.mp hit x (coherent.lined.mem x)
    cases free : c.bcache.order.reverse.find? c.bcache.isFree with
    | none => rw [free] at claimed; cases claimed
    | some b₁ =>
      rw [free] at claimed
      cases claimed
      have zero := List.find?_some free
      simp only [Bcache.isFree, decide_eq_true_eq] at zero
      have view := Cache.view_of_none fun x _ => missing x
      dsimp only at filled
      simp only [Bcache.setBuf_self, Bool.not_false, ite_true, Ends.pure_eq, Ends.ok.injEq,
        Prod.mk.injEq] at filled
      obtain ⟨rfl, rfl⟩ := filled
      refine ⟨?_, .inr ⟨missing, zero⟩⟩
      rw [Bcache.setBuf_setBuf]
      congr 1
      exact Bcache.setBuf_congr (by simp [view, zero])

theorem bread_live (coherent : Coherent c) (got : c.bread pid dev blockno = .ok (b, c')) {x : Fin NBUF}
    (live : c.bcache.Live x) (holds : (c.bcache.buf x).dev = dev ∧ (c.bcache.buf x).blockno = blockno) : b = x := by
  obtain ⟨-, hit | ⟨missing, -⟩⟩ := coherent.bread_eq got
  · have firstX := coherent.first x live
    rw [Bcache.First, holds.1, holds.2, hit] at firstX
    exact Option.some.inj firstX
  · simpa [Bcache.isBlock, holds] using missing x

theorem bread_view (coherent : Coherent c) (got : c.bread pid dev blockno = .ok (b, c'))
    (clean : ∀ x, (c.bcache.buf x).valid → (c.bcache.buf x).refcnt = 0 →
      (c.bcache.buf x).data = c.disk (c.bcache.buf x).blockno) : c'.view = c.view := by
  have coherent' := coherent.bread got
  obtain ⟨eq, found⟩ := coherent.bread_eq got
  have disk : c'.disk = c.disk := by rw [eq]
  have bufB : (c'.bcache.buf b).valid ∧ (c'.bcache.buf b).dev = dev ∧
      (c'.bcache.buf b).blockno = blockno ∧ (c'.bcache.buf b).data = c.view dev blockno := by
    rw [eq]; simp
  have other (x : Fin NBUF) (xb : x ≠ b) : c'.bcache.buf x = c.bcache.buf x := by rw [eq]; simp [xb]
  funext d j
  by_cases here : d = dev ∧ j = blockno
  · obtain ⟨rfl, rfl⟩ := here
    have := coherent'.view_of_valid bufB.1
    rwa [bufB.2.1, bufB.2.2.1, bufB.2.2.2] at this
  by_cases kept : ∃ x, x ≠ b ∧ (c.bcache.buf x).valid ∧ (c.bcache.buf x).dev = d ∧ (c.bcache.buf x).blockno = j
  · -- another buffer held the block, and still does
    obtain ⟨x, xb, valid, rfl, rfl⟩ := kept
    have before := coherent.view_of_valid valid
    have after := coherent'.view_of_valid (b := x) (by rw [other x xb]; exact valid)
    rw [other x xb] at after
    exact after.trans before.symm
  · push_neg at kept
    have none' : c'.view d j = c'.disk j := Cache.view_of_none fun x valid => by
      by_cases xb : x = b
      · subst xb
        simp only [Bcache.isBlock, bufB.2.1, bufB.2.2.1, decide_eq_false_iff_not]
        exact fun same => here ⟨same.1.symm, same.2.symm⟩
      · rw [other x xb] at valid
        simp only [Bcache.isBlock, other x xb, decide_eq_false_iff_not]
        exact fun same => kept x xb valid same.1 same.2
    rw [none', disk]
    by_cases heldB : (c.bcache.buf b).valid ∧ (c.bcache.buf b).dev = d ∧ (c.bcache.buf b).blockno = j
    · -- then `b` was recycled from the block, which it held as the disk does
      have before := coherent.view_of_valid heldB.1
      rw [heldB.2.1, heldB.2.2] at before
      rw [before]
      rcases found with hit | ⟨-, zero⟩
      · have block := List.find?_some hit
        simp only [Bcache.isBlock, decide_eq_true_eq] at block
        exact absurd ⟨heldB.2.1.symm.trans block.1, heldB.2.2.symm.trans block.2⟩ here
      · rw [clean b heldB.1 zero, heldB.2.2]
    · refine (Cache.view_of_none fun x valid => ?_).symm
      simp only [Bcache.isBlock, decide_eq_false_iff_not]
      by_cases xb : x = b
      · subst xb; exact fun same => heldB ⟨valid, same⟩
      · exact fun same => kept x xb valid same.1 same.2

theorem modify_view (coherent : Coherent c) (valid : (c.bcache.buf b).valid) (data : Block) :
    (c.modify b data).view (c.bcache.buf b).dev =
      Function.update (c.view (c.bcache.buf b).dev) (c.bcache.buf b).blockno data := by
  funext j
  by_cases jb : j = (c.bcache.buf b).blockno
  · subst jb
    simpa using (coherent.modify b data).view_of_valid (b := b) (by simpa using valid)
  · rw [Function.update_noteq jb]
    refine Cache.view_eq_at rfl (fun x => ?_) fun x _ blockno => ?_
    · by_cases xb : x = b <;> simp [xb]
    · have xb : x ≠ b := fun eq => jb (eq ▸ blockno).symm
      simp [xb]

theorem bwrite_view (coherent : Coherent c) (valid : (c.bcache.buf b).valid) :
    (c.bwrite b).view (c.bcache.buf b).dev = c.view (c.bcache.buf b).dev := by
  funext j
  by_cases jb : j = (c.bcache.buf b).blockno
  · subst jb
    exact ((coherent.bwrite b).view_of_valid (b := b) valid).trans (coherent.view_of_valid valid).symm
  · exact Cache.view_eq_at (by simp [Function.update_noteq jb]) (fun _ => ⟨rfl, rfl⟩) fun _ _ _ => ⟨rfl, rfl⟩

end Coherent

/-! ### The log's cache -/

namespace Cache.Tidy

variable {c c' : Cache NBUF} {pid dev blockno D : Nat} {b : Fin NBUF}

theorem clean (tidy : c.Tidy D) (coherent : Coherent c) {x : Fin NBUF} (valid : (c.bcache.buf x).valid)
    (zero : (c.bcache.buf x).refcnt = 0) : (c.bcache.buf x).data = c.disk (c.bcache.buf x).blockno := by
  refine (tidy x valid).2.resolve_right fun pinned => ?_
  have := coherent.counted x
  have := List.count_pos_iff.mpr pinned
  omega

theorem bread (tidy : c.Tidy D) (coherent : Coherent c) (got : c.bread pid D blockno = .ok (b, c')) :
    c'.Tidy D := by
  obtain ⟨rfl, -⟩ := coherent.bread_eq got
  intro x valid
  by_cases xb : x = b
  · subst xb
    simp only [Bcache.setBuf_self, true_and]
    by_cases held : (c.bcache.buf x).valid ∧ (c.bcache.buf x).dev = D ∧ (c.bcache.buf x).blockno = blockno
    · have view := coherent.view_of_valid held.1
      rw [held.2.1, held.2.2] at view
      rw [view]
      simpa [held.2.2] using (tidy x held.1).2
    · left
      refine Cache.view_of_none fun y validY => ?_
      by_contra passes
      simp only [Bcache.isBlock, Bool.not_eq_false, decide_eq_true_eq] at passes
      obtain rfl := coherent.bread_live got (.inr validY) passes
      exact held ⟨validY, passes⟩
  · simpa [xb] using tidy x (by simpa [xb] using valid)

theorem modify_bwrite (tidy : c.Tidy D) (coherent : Coherent c) (valid : (c.bcache.buf b).valid)
    (data : Block) : ((c.modify b data).bwrite b).Tidy D := by
  intro x validX
  by_cases xb : x = b
  · subst xb; simpa [Function.update_apply] using (tidy x valid).1
  · have validX' : (c.bcache.buf x).valid := by simpa [xb] using validX
    obtain ⟨devX, cleanX⟩ := tidy x validX'
    have ne : (c.bcache.buf x).blockno ≠ (c.bcache.buf b).blockno := fun same =>
      xb (coherent.unique (.inr validX') (.inr valid) (devX.trans (tidy b valid).1.symm) same)
    simpa [xb, Function.update_apply, ne] using ⟨devX, cleanX⟩

theorem modify (tidy : c.Tidy D) (pinned : b ∈ c.pins) (data : Block) : (c.modify b data).Tidy D := by
  intro x valid
  by_cases xb : x = b
  · subst xb; simpa using ⟨(tidy x (by simpa using valid)).1, .inr pinned⟩
  · simpa [xb] using tidy x (by simpa [xb] using valid)

theorem modify_bpin (tidy : c.Tidy D) (valid : (c.bcache.buf b).valid) (data : Block) :
    ((c.modify b data).bpin b).Tidy D := by
  intro x validX
  by_cases xb : x = b
  · subst xb; simpa using (tidy x valid).1
  · simpa [xb] using tidy x (by simpa [xb] using validX)

theorem view_eq (tidy : c.Tidy D) (unpinned : c.pins = []) : c.view D = c.disk := by
  funext blockno
  unfold view
  cases found : (List.finRange NBUF).find? fun x => (c.bcache.buf x).valid && c.bcache.isBlock D blockno x with
  | none => rfl
  | some x =>
    have passes := List.find?_some found
    simp only [Bool.and_eq_true, Bcache.isBlock, decide_eq_true_eq] at passes
    have clean := (tidy x passes.1).2.resolve_right (by simp [unpinned])
    rwa [passes.2.2] at clean

theorem of_refcnt (tidy : c.Tidy D) (disk : c'.disk = c.disk) (f : Buf → Buf)
    (buf : c'.bcache.buf = (c.bcache.setBuf b f).buf) (keeps : ∀ buf, (f buf).valid = buf.valid ∧
      (f buf).dev = buf.dev ∧ (f buf).blockno = buf.blockno ∧ (f buf).data = buf.data)
    (pins : ∀ x ∈ c.pins, (c.bcache.buf x).data = c.disk (c.bcache.buf x).blockno ∨ x ∈ c'.pins) :
    c'.Tidy D := by
  intro x valid
  have same : (c'.bcache.buf x).valid = (c.bcache.buf x).valid ∧ (c'.bcache.buf x).dev = (c.bcache.buf x).dev ∧
      (c'.bcache.buf x).blockno = (c.bcache.buf x).blockno ∧ (c'.bcache.buf x).data = (c.bcache.buf x).data := by
    by_cases xb : x = b
    · subst xb; simpa [buf] using keeps _
    · simp [buf, xb]
  rw [same.1] at valid
  obtain ⟨devX, cleanX | pinned⟩ := tidy x valid
  · exact ⟨same.2.1 ▸ devX, .inl (by rw [same.2.2.1, same.2.2.2, disk]; exact cleanX)⟩
  · refine ⟨same.2.1 ▸ devX, (pins x pinned).imp (fun clean => ?_) id⟩
    rw [same.2.2.1, same.2.2.2, disk]; exact clean

theorem brelse (tidy : c.Tidy D) : (c.brelse pid b).Tidy D :=
  tidy.of_refcnt rfl _ Cache.brelse_buf (fun _ => ⟨rfl, rfl, rfl, rfl⟩) fun _ pinned => .inr pinned

theorem bpin (tidy : c.Tidy D) : (c.bpin b).Tidy D :=
  tidy.of_refcnt rfl _ Cache.bpin_buf (fun _ => ⟨rfl, rfl, rfl, rfl⟩) fun _ pinned => .inr (.tail _ pinned)

theorem bunpin (tidy : c.Tidy D) (clean : (c.bcache.buf b).data = c.disk (c.bcache.buf b).blockno) :
    (c.bunpin b).Tidy D :=
  tidy.of_refcnt rfl _ Cache.bunpin_buf (fun _ => ⟨rfl, rfl, rfl, rfl⟩) fun x pinned => by
    by_cases xb : x = b
    · exact .inl (xb ▸ clean)
    · exact .inr (List.mem_erase_of_ne xb |>.mpr pinned)

end Cache.Tidy

/-! ### The list under every call -/

namespace Bcache.Lined

variable {c c' : Cache NBUF} {pid dev blockno : Nat} {b : Fin NBUF}

theorem cache_bread (lined : c.bcache.Lined) (got : c.bread pid dev blockno = .ok (b, c')) :
    c'.bcache.Lined ∧ c'.disk = c.disk ∧ (c'.bcache.buf b).blockno = blockno ∧ 0 < (c'.bcache.buf b).refcnt := by
  obtain ⟨bc, fetched, rfl⟩ := Cache.bread_ok got
  obtain ⟨f, keeps, ⟨found, rfl⟩ | ⟨-, -, rfl⟩⟩ := lined.bread_cases fetched
  · have block := List.find?_some found
    simp only [Bcache.isBlock, decide_eq_true_eq] at block
    exact ⟨lined.setBuf, rfl, by simp [(keeps _).2.1, block.2], by simp [(keeps _).2.2]⟩
  · exact ⟨lined.setBuf, rfl, by simp [(keeps _).2.1], by simp [(keeps _).2.2]⟩

theorem cache_modify (lined : c.bcache.Lined) (data : Block) : (c.modify b data).bcache.Lined := by
  dsimp only [Cache.modify]; exact lined.setBuf

theorem cache_bwrite (lined : c.bcache.Lined) : (c.bwrite b).bcache.Lined := lined

theorem cache_bpin (lined : c.bcache.Lined) : (c.bpin b).bcache.Lined := by
  dsimp only [Cache.bpin, Bio.bpin]; exact lined.setBuf

theorem cache_bunpin (lined : c.bcache.Lined) : (c.bunpin b).bcache.Lined := by
  dsimp only [Cache.bunpin, Bio.bunpin]; exact lined.setBuf

theorem cache_brelse (lined : c.bcache.Lined) : (c.brelse pid b).bcache.Lined := by
  dsimp only [Cache.brelse, Bio.brelse]
  split
  · exact (lined.setBuf.move b).1
  · exact lined.setBuf

end Bcache.Lined

/-! ### Panics -/

theorem bget_panics (bc : Bcache NBUF) (dev blockno : Nat) :
    (bget bc dev blockno).PanicsWith "bget: no buffers" := by
  intro m panics
  unfold bget at panics
  split at panics
  · cases panics
  · cases panics
  · split at panics
    · cases panics
    · cases panics; rfl
    · cases panics

theorem Cache.bread_panics (c : Cache NBUF) (pid dev blockno : Nat) :
    (c.bread pid dev blockno).PanicsWith "bget: no buffers" :=
  .bind (.bind (bget_panics _ _ _) fun _ => by dsimp only; split <;> exact .ok _) fun _ => .ok _

/-! ### Calls within the contract -/

namespace Reachable

variable {c c' : Cache NBUF} {pid dev blockno : Nat} {b : Fin NBUF}

theorem bread (reach : Reachable c) (got : c.bread pid dev blockno = .ok (b, c')) : Reachable c' :=
  .step (.bread pid dev blockno) reach trivial (by simp [Cache.step, got])

theorem bwrite (reach : Reachable c) (holding : c.Holding pid b) : Reachable (c.bwrite b) :=
  .step (.bwrite pid b) reach holding rfl

theorem brelse (reach : Reachable c) (holding : c.Holding pid b) : Reachable (c.brelse pid b) :=
  .step (.brelse pid b) reach holding rfl

theorem bpin (reach : Reachable c) (holding : c.Holding pid b) : Reachable (c.bpin b) :=
  .step (.bpin pid b) reach holding rfl

theorem bunpin (reach : Reachable c) (holding : c.Holding pid b) (pinned : b ∈ c.pins) :
    Reachable (c.bunpin b) :=
  .step (.bunpin pid b) reach ⟨holding, pinned⟩ rfl

theorem modify (reach : Reachable c) (holding : c.Holding pid b) (data : Block) :
    Reachable (c.modify b data) :=
  .step (.modify pid b data) reach holding rfl

end Reachable

theorem Cache.bread_holding {c c' : Cache NBUF} {pid dev blockno : Nat} {b : Fin NBUF}
    (got : c.bread pid dev blockno = .ok (b, c')) : c'.Holding pid b := by
  obtain ⟨_, -, rfl⟩ := Cache.bread_ok got
  exact ⟨_, List.mem_append_right _ (List.mem_singleton_self _), rfl, rfl⟩

/-! ### The calls the log makes -/

theorem Reachable.valid {c : Cache NBUF} (reach : Reachable c) {x : Fin NBUF}
    (counted : 0 < (c.bcache.buf x).refcnt) : (c.bcache.buf x).valid := by
  induction reach generalizing x with
  | init => simp [Cache.init, binit] at counted
  | step e reach allowed step ih =>
    have coherent := coherent_reachable reach
    cases e with
    | bread =>
      obtain ⟨b, got⟩ := Cache.step_bread step
      obtain ⟨rfl, -⟩ := coherent.bread_eq got
      by_cases xb : x = b
      · subst xb; simp
      · simp only [Bcache.setBuf_of_ne xb] at counted ⊢; exact ih counted
    | bwrite => cases step; exact ih counted
    | bpin _ b =>
      cases step
      by_cases xb : x = b
      · subst xb; simpa using ih (coherent.holding_pos allowed)
      · simp [xb] at counted ⊢; exact ih counted
    | brelse _ b | bunpin _ b =>
      cases step
      by_cases xb : x = b
      · subst xb; simp at counted ⊢; exact ih (by omega)
      · simp [xb] at counted ⊢; exact ih counted
    | modify _ b =>
      cases step
      by_cases xb : x = b
      · subst xb; simpa using ih (by simpa using counted)
      · simp [xb] at counted ⊢; exact ih counted

theorem Coherent.pos_of_pinned {c : Cache NBUF} {b : Fin NBUF} (coherent : Coherent c) (pinned : b ∈ c.pins) :
    0 < (c.bcache.buf b).refcnt := by
  have := List.count_pos_iff.mpr pinned
  rw [coherent.counted b]; omega

/-- No buffer someone counts on in `c` is on another block in `c'`. -/
def Cache.Keeps (c c' : Cache NBUF) : Prop :=
  ∀ x, 0 < (c.bcache.buf x).refcnt →
    (c'.bcache.buf x).dev = (c.bcache.buf x).dev ∧ (c'.bcache.buf x).blockno = (c.bcache.buf x).blockno

theorem Cache.Keeps.trans {c c₁ c₂ : Cache NBUF} (first : c.Keeps c₁) (second : c₁.Keeps c₂)
    (grows : ∀ x, (c.bcache.buf x).refcnt ≤ (c₁.bcache.buf x).refcnt) : c.Keeps c₂ := fun x pos =>
  have kept := second x (Nat.lt_of_lt_of_le pos (grows x))
  ⟨kept.1.trans (first x pos).1, kept.2.trans (first x pos).2⟩

/-- The cache as the log keeps it: a state the cache reaches within its contract, tidy for the log's device. -/
structure Cache.Sound (D : Nat) (c : Cache NBUF) : Prop where
  reach : Reachable c
  tidy : c.Tidy D

namespace Cache.Sound

variable {c c' : Cache NBUF} {pid D blockno : Nat} {b : Fin NBUF}

theorem coherent (sound : c.Sound D) : Coherent c := coherent_reachable sound.reach

theorem counted (sound : c.Sound D) (pos : 0 < (c.bcache.buf b).refcnt) :
    (c.bcache.buf b).valid ∧ (c.bcache.buf b).dev = D ∧
      c.view D (c.bcache.buf b).blockno = (c.bcache.buf b).data := by
  have valid := sound.reach.valid pos
  have dev := (sound.tidy b valid).1
  exact ⟨valid, dev, dev ▸ sound.coherent.view_of_valid valid⟩

theorem bread (sound : c.Sound D) (got : c.bread pid D blockno = .ok (b, c')) :
    c'.Sound D ∧ c'.view = c.view ∧ c'.disk = c.disk ∧ c'.pins = c.pins ∧
      c'.holds = c.holds ++ [⟨pid, b, D, blockno⟩] ∧ (c'.bcache.buf b).blockno = blockno ∧
      c.Keeps c' ∧ ∀ x, (c.bcache.buf x).refcnt ≤ (c'.bcache.buf x).refcnt := by
  have coherent := sound.coherent
  obtain ⟨eq, -⟩ := coherent.bread_eq got
  refine ⟨⟨sound.reach.bread got, sound.tidy.bread coherent got⟩,
    coherent.bread_view got fun _ valid zero => sound.tidy.clean coherent valid zero,
    by rw [eq], by rw [eq], by rw [eq], by rw [eq]; simp,
    fun x => coherent.lined.bread_block_kept got x, fun x => ?_⟩
  rw [eq]
  by_cases xb : x = b
  · subst xb; simp
  · simp [xb]

theorem write (sound : c.Sound D) (holding : c.Holding pid b) (data : Block) :
    ((c.modify b data).bwrite b).Sound D ∧
      ((c.modify b data).bwrite b).view D = Function.update (c.view D) (c.bcache.buf b).blockno data ∧
      ((c.modify b data).bwrite b).disk = Function.update c.disk (c.bcache.buf b).blockno data := by
  have coherent := sound.coherent
  obtain ⟨valid, dev, -⟩ := sound.counted (coherent.holding_pos holding)
  refine ⟨⟨(sound.reach.modify holding data).bwrite holding, sound.tidy.modify_bwrite coherent valid data⟩,
    ?_, by simp⟩
  have written := (coherent.modify b data).bwrite_view (b := b) (by simpa using valid)
  have stored := coherent.modify_view valid data
  rw [modify_dev, dev] at written
  rw [dev] at stored
  exact written.trans stored

theorem brelse (sound : c.Sound D) (holding : c.Holding pid b) : (c.brelse pid b).Sound D :=
  ⟨sound.reach.brelse holding, sound.tidy.brelse⟩

theorem bunpin (sound : c.Sound D) (holding : c.Holding pid b) (pinned : b ∈ c.pins)
    (clean : (c.bcache.buf b).data = c.disk (c.bcache.buf b).blockno) : (c.bunpin b).Sound D :=
  ⟨sound.reach.bunpin holding pinned, sound.tidy.bunpin clean⟩

theorem modify (sound : c.Sound D) (holding : c.Holding pid b) (pinned : b ∈ c.pins) (data : Block) :
    (c.modify b data).Sound D :=
  ⟨sound.reach.modify holding data, sound.tidy.modify pinned data⟩

theorem modify_bpin (sound : c.Sound D) (holding : c.Holding pid b) (data : Block) :
    ((c.modify b data).bpin b).Sound D :=
  ⟨(sound.reach.modify holding data).bpin holding,
    sound.tidy.modify_bpin (sound.counted (sound.coherent.holding_pos holding)).1 data⟩

end Cache.Sound

end Xv6.Bio
