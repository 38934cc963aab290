import Mathlib.Data.List.FinRange
import Xv6.Bio.Links

/-!
# The buffer cache

`bio.c`'s `binit`, `bget`, `bread`, `bwrite`, `brelse`, `bpin` and `bunpin` over `NBUF`
buffers, and a system of processes calling them in any interleaving, each call taken whole
as `bcache.lock` makes it. The sleep locks are left out, so any process may call `bwrite` or
`brelse` on a buffer it holds; `Cache` adds, as ghost state, who holds which buffer, the
outstanding pins, and when each buffer was last released.

`bcache_coherent` shows `refcnt` counts the holders and pins, and that two buffers in use
never share a block; `bcache_lru` shows the list is kept in least-recently-released order, so
`bget` recycles the buffer released longest ago.
-/

namespace Xv6

/-- How kernel code ends: it returns, it panics with a message, or a loop the model bounds did not finish. -/
inductive Ends (α : Type) where
  | ok (a : α)
  | panic (msg : String)
  | stuck

namespace Ends

variable {α β : Type}

def bind : Ends α → (α → Ends β) → Ends β
  | .ok a, f => f a
  | .panic msg, _ => .panic msg
  | .stuck, _ => .stuck

instance : Monad Ends where
  pure := .ok
  bind := bind

/-- The result, or `d` when there is none. -/
def getD : Ends α → α → α
  | .ok a, _ => a
  | _, d => d

@[simp] theorem pure_eq (a : α) : (pure a : Ends α) = .ok a := rfl

@[simp] theorem ok_bind (a : α) (f : α → Ends β) : (Ends.ok a >>= f) = f a := rfl

@[simp] theorem panic_bind (msg : String) (f : α → Ends β) : (Ends.panic msg >>= f) = .panic msg := rfl

@[simp] theorem stuck_bind (f : α → Ends β) : (Ends.stuck >>= f) = .stuck := rfl

theorem bind_eq_ok {x : Ends α} {f : α → Ends β} {b : β} :
    x >>= f = .ok b ↔ ∃ a, x = .ok a ∧ f a = .ok b := by
  cases x <;> simp

theorem bind_pure_eq_ok {x : Ends α} {g : α → β} {b : β} :
    (x >>= fun a => pure (g a)) = .ok b ↔ ∃ a, x = .ok a ∧ g a = b := by
  cases x <;> simp

/-- `x` panics, if at all, with `msg`. -/
def PanicsWith (msg : String) (x : Ends α) : Prop := ∀ m, x = .panic m → m = msg

theorem PanicsWith.ok {msg : String} (a : α) : (Ends.ok a).PanicsWith msg := fun _ h => by cases h

theorem PanicsWith.bind {msg : String} {x : Ends α} {f : α → Ends β} (first : x.PanicsWith msg)
    (rest : ∀ a, (f a).PanicsWith msg) : (x >>= f).PanicsWith msg := by
  intro m panics
  cases x with
  | ok a => exact rest a m panics
  | panic _ => cases panics; exact first _ rfl
  | stuck => cases panics

end Ends

end Xv6

namespace Xv6.Bio

/-- A block's contents, by word. -/
abbrev Block := Nat → Nat

/-- The disk, block by number: `virtio_disk_rw` reads and writes `b->blockno` and ignores `b->dev`. -/
abbrev Disk := Nat → Block

/-- The fields of `struct buf` that `bio.c` reads or writes, besides the list pointers and the sleep lock. -/
structure Buf where
  valid : Bool
  dev : Nat
  blockno : Nat
  refcnt : Nat
  data : Block

/-- `bcache`: the buffers and the list through them. -/
structure Bcache (NBUF : Nat) where
  buf : Fin NBUF → Buf
  links : Links (Fin NBUF)

variable {NBUF : Nat}

def Bcache.setBuf (bc : Bcache NBUF) (b : Fin NBUF) (f : Buf → Buf) : Bcache NBUF :=
  { bc with buf := Function.update bc.buf b (f (bc.buf b)) }

/-- The test of `bget`'s first loop. -/
def Bcache.isBlock (bc : Bcache NBUF) (dev blockno : Nat) (b : Fin NBUF) : Bool :=
  (bc.buf b).dev = dev ∧ (bc.buf b).blockno = blockno

/-- The test of `bget`'s second loop. -/
def Bcache.isFree (bc : Bcache NBUF) (b : Fin NBUF) : Bool := (bc.buf b).refcnt = 0

/-- The list read from `bcache.head.next` along `next`, most recently released first. -/
def Bcache.order (bc : Bcache NBUF) : List (Fin NBUF) := walk bc.links.next NBUF (bc.links.next none)

/-- `binit`: the zeroed buffers of the `.bss`, each of `buf[0..NBUF)` pushed at the front in turn.
 -/
def binit (NBUF : Nat) : Bcache NBUF where
  buf _ := ⟨false, 0, 0, 0, fun _ => 0⟩
  links := (List.finRange NBUF).foldl Links.pushFront ⟨fun _ => none, fun _ => none⟩

/-- `bget`: the first buffer from the front holding `(dev, blockno)`, its count raised, or else the
first from the back with `refcnt == 0`, recycled for `(dev, blockno)`. -/
def bget (bc : Bcache NBUF) (dev blockno : Nat) : Ends (Fin NBUF × Bcache NBUF) :=
  match scan bc.links.next (bc.isBlock dev blockno) (NBUF + 1) (bc.links.next none) with
  | .found b => .ok (b, bc.setBuf b fun buf => { buf with refcnt := buf.refcnt + 1 })
  | .stuck => .stuck
  | .head =>
    match scan bc.links.prev bc.isFree (NBUF + 1) (bc.links.prev none) with
    | .found b =>
      .ok (b, bc.setBuf b fun buf =>
        { buf with dev := dev, blockno := blockno, valid := false, refcnt := 1 })
    | .head => .panic "bget: no buffers"
    | .stuck => .stuck

/-- `bread`: `bget`, then the block read from disk unless the buffer already holds it. -/
def bread (bc : Bcache NBUF) (disk : Disk) (dev blockno : Nat) : Ends (Fin NBUF × Bcache NBUF) := do
  let (b, bc) ← bget bc dev blockno
  if !(bc.buf b).valid then
    pure (b, bc.setBuf b fun buf => { buf with data := disk buf.blockno, valid := true })
  else pure (b, bc)

/-- `bwrite`: the buffer's contents written to its block. -/
def bwrite (bc : Bcache NBUF) (disk : Disk) (b : Fin NBUF) : Disk :=
  Function.update disk (bc.buf b).blockno (bc.buf b).data

/-- `brelse`: the count dropped, and a buffer no one holds moved to the front. -/
def brelse (bc : Bcache NBUF) (b : Fin NBUF) : Bcache NBUF :=
  let bc := bc.setBuf b fun buf => { buf with refcnt := buf.refcnt - 1 }
  if (bc.buf b).refcnt = 0 then { bc with links := (bc.links.unlink b).pushFront b } else bc

def bpin (bc : Bcache NBUF) (b : Fin NBUF) : Bcache NBUF :=
  bc.setBuf b fun buf => { buf with refcnt := buf.refcnt + 1 }

def bunpin (bc : Bcache NBUF) (b : Fin NBUF) : Bcache NBUF :=
  bc.setBuf b fun buf => { buf with refcnt := buf.refcnt - 1 }

/-! ### Processes calling the cache -/

/-- A process's hold on a buffer: it passed `bget`'s claim for `(dev, blockno)` and has not called `brelse` since. -/
structure Hold (NBUF : Nat) where
  pid : Nat
  buf : Fin NBUF
  dev : Nat
  blockno : Nat

/-- The cache and the disk, with ghost state. -/
structure Cache (NBUF : Nat) where
  bcache : Bcache NBUF
  disk : Disk
  holds : List (Hold NBUF)
  pins : List (Fin NBUF)
  clock : Nat
  released : Fin NBUF → Option Nat

namespace Cache

/-- The start: `binit` over any disk. -/
def init (disk : Disk) : Cache NBUF := ⟨binit NBUF, disk, [], [], 0, fun _ => none⟩

/-- `bread` called by `pid`, who then holds the buffer. -/
def bread (c : Cache NBUF) (pid dev blockno : Nat) : Ends (Fin NBUF × Cache NBUF) := do
  let (b, bc) ← Bio.bread c.bcache c.disk dev blockno
  pure (b, { c with bcache := bc, holds := c.holds ++ [⟨pid, b, dev, blockno⟩] })

def bwrite (c : Cache NBUF) (b : Fin NBUF) : Cache NBUF := { c with disk := Bio.bwrite c.bcache c.disk b }

/-- `brelse` called by `pid`, whose hold ends. -/
def brelse (c : Cache NBUF) (pid : Nat) (b : Fin NBUF) : Cache NBUF :=
  let bc := Bio.brelse c.bcache b
  let last := (bc.buf b).refcnt = 0
  { c with
    bcache := bc
    holds := c.holds.eraseP fun h => h.pid = pid ∧ h.buf = b
    clock := if last then c.clock + 1 else c.clock
    released := if last then Function.update c.released b (some c.clock) else c.released }

def bpin (c : Cache NBUF) (b : Fin NBUF) : Cache NBUF := { c with bcache := Bio.bpin c.bcache b, pins := b :: c.pins }

def bunpin (c : Cache NBUF) (b : Fin NBUF) : Cache NBUF :=
  { c with bcache := Bio.bunpin c.bcache b, pins := c.pins.erase b }

/-- The holder's store into `b->data`: a caller's change, or `memmove` from another buffer. -/
def modify (c : Cache NBUF) (b : Fin NBUF) (data : Block) : Cache NBUF :=
  { c with bcache := c.bcache.setBuf b fun buf => { buf with data := data } }

end Cache

/-- A call into the cache by process `pid`, or its store into a buffer it holds. -/
inductive Event (NBUF : Nat)
  | bread (pid dev blockno : Nat)
  | bwrite (pid : Nat) (b : Fin NBUF)
  | brelse (pid : Nat) (b : Fin NBUF)
  | bpin (pid : Nat) (b : Fin NBUF)
  | bunpin (pid : Nat) (b : Fin NBUF)
  | modify (pid : Nat) (b : Fin NBUF) (data : Block)

namespace Cache

/-- One call. -/
def step (c : Cache NBUF) : Event NBUF → Ends (Cache NBUF)
  | .bread pid dev blockno => do
    let (_, c) ← c.bread pid dev blockno
    pure c
  | .bwrite _ b => .ok (c.bwrite b)
  | .brelse pid b => .ok (c.brelse pid b)
  | .bpin _ b => .ok (c.bpin b)
  | .bunpin _ b => .ok (c.bunpin b)
  | .modify _ b data => .ok (c.modify b data)

/-- `pid` holds `b`. -/
def Holding (c : Cache NBUF) (pid : Nat) (b : Fin NBUF) : Prop := ∃ h ∈ c.holds, h.pid = pid ∧ h.buf = b

/-- The callers' side of the contract. -/
def Allowed (c : Cache NBUF) : Event NBUF → Prop
  | .bread .. => True
  | .bwrite pid b | .brelse pid b | .bpin pid b | .modify pid b _ => c.Holding pid b
  | .bunpin pid b => c.Holding pid b ∧ b ∈ c.pins

theorem bread_ok {c c' : Cache NBUF} {pid dev blockno : Nat} {b : Fin NBUF}
    (got : c.bread pid dev blockno = .ok (b, c')) :
    ∃ bc, Bio.bread c.bcache c.disk dev blockno = .ok (b, bc) ∧
      c' = { c with bcache := bc, holds := c.holds ++ [⟨pid, b, dev, blockno⟩] } := by
  obtain ⟨⟨b₀, bc⟩, got', ret⟩ := Ends.bind_eq_ok.mp got
  simp only [Ends.pure_eq, Ends.ok.injEq, Prod.mk.injEq] at ret
  obtain ⟨rfl, rfl⟩ := ret
  exact ⟨bc, got', rfl⟩

theorem step_bread {c c' : Cache NBUF} {pid dev blockno : Nat} (step : c.step (.bread pid dev blockno) = .ok c') :
    ∃ b, c.bread pid dev blockno = .ok (b, c') := by
  obtain ⟨⟨b, c₀⟩, got, ret⟩ := Ends.bind_eq_ok.mp step
  simp only [Ends.pure_eq, Ends.ok.injEq] at ret
  exact ⟨b, ret ▸ got⟩

end Cache

inductive Reachable : Cache NBUF → Prop
  | init (disk : Disk) : Reachable (.init disk)
  | step {c c' : Cache NBUF} (e : Event NBUF) : Reachable c → c.Allowed e → c.step e = .ok c' →
      Reachable c'

/-! ### The list -/

namespace Bcache

variable {bc : Bcache NBUF} {b x : Fin NBUF} {f : Buf → Buf}

@[simp] theorem setBuf_self : (bc.setBuf b f).buf b = f (bc.buf b) := by simp [setBuf]

@[simp] theorem setBuf_of_ne (ne : x ≠ b) : (bc.setBuf b f).buf x = bc.buf x := by
  simp [setBuf, ne]

theorem isBlock_setBuf_of_ne {dev blockno : Nat} (ne : x ≠ b) :
    (bc.setBuf b f).isBlock dev blockno x = bc.isBlock dev blockno x := by
  simp only [isBlock, setBuf_of_ne ne]

@[simp] theorem setBuf_setBuf {g : Buf → Buf} : (bc.setBuf b f).setBuf b g = bc.setBuf b (g ∘ f) := by
  simp [setBuf]

theorem setBuf_id : bc.setBuf b id = bc := by simp [setBuf]

@[simp] theorem setBuf_links : (bc.setBuf b f).links = bc.links := rfl

@[simp] theorem setBuf_order : (bc.setBuf b f).order = bc.order := rfl

/-- The pointers spell a list holding each buffer once. -/
structure Lined (bc : Bcache NBUF) : Prop where
  ring : Ring bc.links bc.order
  perm : bc.order.Perm (List.finRange NBUF)

theorem Lined.of_ring {l : List (Fin NBUF)} (ring : Ring bc.links l)
    (perm : l.Perm (List.finRange NBUF)) : bc.Lined ∧ bc.order = l := by
  have order : bc.order = l := walk_spells ring.forward ring.nodup NBUF (by simp [perm.length_eq])
  exact ⟨⟨order ▸ ring, order ▸ perm⟩, order⟩

theorem Lined.setBuf (lined : bc.Lined) : (bc.setBuf b f).Lined := ⟨lined.ring, lined.perm⟩

theorem Lined.move (lined : bc.Lined) (b : Fin NBUF) :
    ({ bc with links := (bc.links.unlink b).pushFront b } : Bcache NBUF).Lined ∧
      ({ bc with links := (bc.links.unlink b).pushFront b } : Bcache NBUF).order = b :: bc.order.erase b := by
  have mem := lined.perm.mem_iff.mpr (List.mem_finRange b)
  have ring := (lined.ring.unlink mem).pushFront (List.Nodup.not_mem_erase lined.ring.nodup)
  exact Lined.of_ring ring ((List.perm_cons_erase mem).symm.trans lined.perm)

theorem Lined.mem (lined : bc.Lined) (b : Fin NBUF) : b ∈ bc.order :=
  lined.perm.mem_iff.mpr (List.mem_finRange b)

theorem Lined.length (lined : bc.Lined) : bc.order.length = NBUF := by
  simp [lined.perm.length_eq]

theorem Lined.bget_eq (lined : bc.Lined) (dev blockno : Nat) :
    bget bc dev blockno =
      match bc.order.find? (bc.isBlock dev blockno) with
      | some b => .ok (b, bc.setBuf b fun buf => { buf with refcnt := buf.refcnt + 1 })
      | none =>
        match bc.order.reverse.find? bc.isFree with
        | some b => .ok (b, bc.setBuf b fun buf =>
            { buf with dev := dev, blockno := blockno, valid := false, refcnt := 1 })
        | none => .panic "bget: no buffers" := by
  have forward := scan_spells lined.ring.forward lined.ring.nodup (bc.isBlock dev blockno) (NBUF + 1)
    (by simp [lined.length])
  have backward := scan_spells lined.ring.backward (List.nodup_reverse.mpr lined.ring.nodup)
    bc.isFree (NBUF + 1) (by simp [lined.length])
  rw [bget, forward, backward]
  cases bc.order.find? (bc.isBlock dev blockno) <;> cases bc.order.reverse.find? bc.isFree <;> rfl

theorem Lined.bread_cases {disk : Disk} {dev blockno : Nat} {bc' : Bcache NBUF} (lined : bc.Lined)
    (got : bread bc disk dev blockno = .ok (b, bc')) :
    ∃ f : Buf → Buf,
      (∀ buf, (f buf).dev = buf.dev ∧ (f buf).blockno = buf.blockno ∧ (f buf).refcnt = buf.refcnt) ∧
      ((bc.order.find? (bc.isBlock dev blockno) = some b ∧
          bc' = bc.setBuf b (f ∘ fun buf => { buf with refcnt := buf.refcnt + 1 })) ∨
        (bc.order.find? (bc.isBlock dev blockno) = none ∧ bc.order.reverse.find? bc.isFree = some b ∧
          bc' = bc.setBuf b (f ∘ fun buf =>
            { buf with dev := dev, blockno := blockno, valid := false, refcnt := 1 }))) := by
  have fill {b₀ : Fin NBUF} {bc₀ : Bcache NBUF}
      (got : (if !(bc₀.buf b₀).valid then (pure (b₀, bc₀.setBuf b₀ fun buf =>
        { buf with data := disk buf.blockno, valid := true }) : Ends _) else pure (b₀, bc₀)) =
          .ok (b, bc')) :
      b₀ = b ∧ ∃ f : Buf → Buf, (∀ buf, (f buf).dev = buf.dev ∧ (f buf).blockno = buf.blockno ∧
        (f buf).refcnt = buf.refcnt) ∧ bc' = bc₀.setBuf b₀ f := by
    split at got <;> simp only [Ends.pure_eq, Ends.ok.injEq, Prod.mk.injEq] at got <;>
      obtain ⟨b_eq, bc_eq⟩ := got
    · exact ⟨b_eq, fun buf => { buf with data := disk buf.blockno, valid := true },
        fun _ => ⟨rfl, rfl, rfl⟩, bc_eq.symm⟩
    · exact ⟨b_eq, id, fun _ => ⟨rfl, rfl, rfl⟩, by rw [← bc_eq, setBuf_id]⟩
  obtain ⟨⟨b₀, bc₀⟩, claimed, filled⟩ := Ends.bind_eq_ok.mp got
  rw [lined.bget_eq] at claimed
  cases hit : bc.order.find? (bc.isBlock dev blockno) with
  | some b₁ =>
    rw [hit] at claimed
    cases claimed
    obtain ⟨rfl, f, keeps, rfl⟩ := fill filled
    exact ⟨f, keeps, .inl ⟨rfl, by rw [setBuf_setBuf]⟩⟩
  | none =>
    rw [hit] at claimed
    cases free : bc.order.reverse.find? bc.isFree with
    | none => rw [free] at claimed; cases claimed
    | some b₁ =>
      rw [free] at claimed
      cases claimed
      obtain ⟨rfl, f, keeps, rfl⟩ := fill filled
      exact ⟨f, keeps, .inr ⟨rfl, rfl, by rw [setBuf_setBuf]⟩⟩

theorem binit_lined : (binit NBUF).Lined ∧ (binit NBUF).order = (List.finRange NBUF).reverse := by
  have ring := Ring.empty.foldl_pushFront (List.finRange NBUF) (by simpa using List.nodup_finRange NBUF)
  rw [List.append_nil] at ring
  exact Lined.of_ring ring (List.reverse_perm _)

/-! ### Buffers in use -/

/-- A buffer in use: someone counts on it, or it holds a block's contents. -/
def Live (bc : Bcache NBUF) (b : Fin NBUF) : Prop := 0 < (bc.buf b).refcnt ∨ (bc.buf b).valid = true

/-- `b` is the first buffer on the list holding its block. -/
def First (bc : Bcache NBUF) (b : Fin NBUF) : Prop :=
  bc.order.find? (bc.isBlock (bc.buf b).dev (bc.buf b).blockno) = some b

section
variable (keeps : ∀ buf, (f buf).dev = buf.dev ∧ (f buf).blockno = buf.blockno)
include keeps

theorem isBlock_setBuf : (bc.setBuf b f).isBlock = bc.isBlock := by
  funext dev blockno x
  by_cases xb : x = b
  · subst xb; simp [isBlock, keeps]
  · simp [isBlock, xb]

theorem block_setBuf (x : Fin NBUF) :
    ((bc.setBuf b f).buf x).dev = (bc.buf x).dev ∧ ((bc.setBuf b f).buf x).blockno = (bc.buf x).blockno := by
  by_cases xb : x = b
  · subst xb; simpa using keeps (bc.buf x)
  · simp [xb]

theorem first_setBuf : (bc.setBuf b f).First x ↔ bc.First x := by
  have same : ((bc.setBuf b f).buf x).dev = (bc.buf x).dev ∧
      ((bc.setBuf b f).buf x).blockno = (bc.buf x).blockno := block_setBuf keeps x
  rw [First, First, isBlock_setBuf keeps, same.1, same.2, setBuf_order]

theorem first_of_setBuf (first : ∀ x, bc.Live x → bc.First x) (firstB : bc.First b) :
    ∀ x, (bc.setBuf b f).Live x → (bc.setBuf b f).First x := by
  intro x live'
  rw [first_setBuf keeps]
  by_cases xb : x = b
  · exact xb ▸ firstB
  · exact first x (by simpa [Live, xb] using live')

end

theorem first_of_modify (first : ∀ x, bc.Live x → bc.First x) (data : Block) :
    ∀ x, (bc.setBuf b fun buf => { buf with data := data }).Live x →
      (bc.setBuf b fun buf => { buf with data := data }).First x := by
  intro x live
  refine (first_setBuf (by intro; exact ⟨rfl, rfl⟩)).mpr (first x ?_)
  by_cases xb : x = b
  · subst xb; simpa [Live] using live
  · simpa [Live, xb] using live

theorem first_move (lined : bc.Lined) (first : ∀ x, bc.Live x → bc.First x) (firstB : bc.First b) :
    ∀ x, ({ bc with links := (bc.links.unlink b).pushFront b } : Bcache NBUF).Live x →
      ({ bc with links := (bc.links.unlink b).pushFront b } : Bcache NBUF).First x := by
  intro x live
  have firstX := first x live
  rw [First, (lined.move b).2]
  show (b :: bc.order.erase b).find? (bc.isBlock (bc.buf x).dev (bc.buf x).blockno) = some x
  by_cases xb : x = b
  · subst xb; simp [isBlock]
  · have other : bc.isBlock (bc.buf x).dev (bc.buf x).blockno b = false := by
      by_contra same
      simp only [isBlock, Bool.not_eq_false, decide_eq_true_eq] at same
      rw [First, ← same.1, ← same.2] at firstX
      exact xb (Option.some.inj (firstX.symm.trans firstB))
    rw [List.find?_cons, other, find?_erase_of_not _ other]
    exact firstX

end Bcache

/-! ### Counts and blocks -/

theorem brelse_buf (bc : Bcache NBUF) (b : Fin NBUF) :
    (Bio.brelse bc b).buf = (bc.setBuf b fun buf => { buf with refcnt := buf.refcnt - 1 }).buf := by
  dsimp only [Bio.brelse]; split <;> rfl

/-- The cache's representation invariant. -/
structure Coherent (c : Cache NBUF) : Prop where
  lined : c.bcache.Lined
  counted : ∀ b, (c.bcache.buf b).refcnt = c.holds.countP (fun h => h.buf = b) + c.pins.count b
  held : ∀ h ∈ c.holds, (c.bcache.buf h.buf).dev = h.dev ∧ (c.bcache.buf h.buf).blockno = h.blockno
  first : ∀ b, c.bcache.Live b → c.bcache.First b

theorem coherent_init (disk : Disk) : Coherent (Cache.init disk : Cache NBUF) where
  lined := Bcache.binit_lined.1
  counted _ := rfl
  held _ mem := by cases mem
  first _ live := by simp [Bcache.Live, Cache.init, binit] at live

namespace Coherent

variable {c : Cache NBUF} {pid : Nat} {b : Fin NBUF}

theorem holding_pos (coherent : Coherent c) (holding : c.Holding pid b) :
    0 < (c.bcache.buf b).refcnt := by
  obtain ⟨h, mem, -, rfl⟩ := holding
  have : 0 < c.holds.countP (fun h' => h'.buf = h.buf) := List.countP_pos_iff.mpr ⟨h, mem, by simp⟩
  rw [coherent.counted]; omega

theorem unique (coherent : Coherent c) {x y : Fin NBUF} (live₁ : c.bcache.Live x) (live₂ : c.bcache.Live y)
    (dev : (c.bcache.buf x).dev = (c.bcache.buf y).dev)
    (blockno : (c.bcache.buf x).blockno = (c.bcache.buf y).blockno) : x = y := by
  have first₁ := coherent.first x live₁
  rw [Bcache.First, dev, blockno] at first₁
  exact Option.some.inj (first₁.symm.trans (coherent.first y live₂))

theorem bpin (coherent : Coherent c) (holding : c.Holding pid b) : Coherent (c.bpin b) := by
  refine ⟨?_, fun x => ?_, fun h mem => ?_, ?_⟩ <;> dsimp only [Cache.bpin, Bio.bpin]
  · exact coherent.lined.setBuf
  · by_cases xb : x = b
    · subst xb; simp [coherent.counted]; omega
    · simp [xb, coherent.counted, List.count_cons_of_ne (Ne.symm xb)]
  · by_cases hb : h.buf = b <;> simpa [hb] using coherent.held h mem
  · exact Bcache.first_of_setBuf (fun _ => ⟨rfl, rfl⟩) coherent.first
      (coherent.first b (.inl (coherent.holding_pos holding)))

theorem bunpin (coherent : Coherent c) (holding : c.Holding pid b) (pinned : b ∈ c.pins) :
    Coherent (c.bunpin b) := by
  refine ⟨?_, fun x => ?_, fun h mem => ?_, ?_⟩ <;> dsimp only [Cache.bunpin, Bio.bunpin]
  · exact coherent.lined.setBuf
  · by_cases xb : x = b
    · subst xb
      have := List.count_pos_iff.mpr pinned
      simp [coherent.counted, List.count_erase_self]; omega
    · simp [xb, coherent.counted, List.count_erase_of_ne xb]
  · by_cases hb : h.buf = b <;> simpa [hb] using coherent.held h mem
  · exact Bcache.first_of_setBuf (fun _ => ⟨rfl, rfl⟩) coherent.first
      (coherent.first b (.inl (coherent.holding_pos holding)))

theorem modify (coherent : Coherent c) (b : Fin NBUF) (data : Block) : Coherent (c.modify b data) := by
  refine ⟨?_, fun x => ?_, fun h mem => ?_, ?_⟩ <;> dsimp only [Cache.modify]
  · exact coherent.lined.setBuf
  · by_cases xb : x = b
    · subst xb; simpa using coherent.counted x
    · simpa [xb] using coherent.counted x
  · by_cases hb : h.buf = b <;> simpa [hb] using coherent.held h mem
  · exact Bcache.first_of_modify coherent.first data

theorem bwrite (coherent : Coherent c) (b : Fin NBUF) : Coherent (c.bwrite b) :=
  ⟨coherent.lined, coherent.counted, coherent.held, coherent.first⟩

theorem countP_eraseP_hold {holds : List (Hold NBUF)} (holding : ∃ h ∈ holds, h.pid = pid ∧ h.buf = b)
    (x : Fin NBUF) :
    (holds.eraseP fun h => h.pid = pid ∧ h.buf = b).countP (fun h => h.buf = x) +
      (if x = b then 1 else 0) = holds.countP (fun h => h.buf = x) := by
  obtain ⟨h, mem, pid_eq, buf_eq⟩ := holding
  obtain ⟨a, pre, suf, -, drop, rfl, erased⟩ :=
    @List.exists_of_eraseP _ (fun h => h.pid = pid ∧ h.buf = b) _ _ mem (by simp [pid_eq, buf_eq])
  simp only [decide_eq_true_eq] at drop
  rw [erased]
  by_cases xb : x = b <;> simp [List.countP_append, drop.2, xb, eq_comm]
  omega

theorem brelse (coherent : Coherent c) (holding : c.Holding pid b) : Coherent (c.brelse pid b) := by
  have live : c.bcache.Live b := .inl (coherent.holding_pos holding)
  have keeps : ∀ buf : Buf, ({ buf with refcnt := buf.refcnt - 1 } : Buf).dev = buf.dev ∧
      ({ buf with refcnt := buf.refcnt - 1 } : Buf).blockno = buf.blockno := fun _ => ⟨rfl, rfl⟩
  refine ⟨?_, fun x => ?_, fun h mem => ?_, ?_⟩ <;> dsimp only [Cache.brelse]
  · dsimp only [Bio.brelse]
    split
    · exact (coherent.lined.setBuf.move b).1
    · exact coherent.lined.setBuf
  · have erased := countP_eraseP_hold holding x
    have counted := coherent.counted x
    rw [brelse_buf]
    by_cases xb : x = b
    · subst xb
      rw [if_pos rfl] at erased
      rw [Bcache.setBuf_self]; dsimp only; omega
    · rw [if_neg xb] at erased
      rw [Bcache.setBuf_of_ne xb]; omega
  · have := coherent.held h (List.mem_of_mem_eraseP mem)
    rw [brelse_buf]
    by_cases hb : h.buf = b <;> simpa [hb] using this
  · have first := Bcache.first_of_setBuf keeps coherent.first (coherent.first b live)
    have lined : (c.bcache.setBuf b fun buf => { buf with refcnt := buf.refcnt - 1 }).Lined :=
      coherent.lined.setBuf
    have firstB : (c.bcache.setBuf b fun buf => { buf with refcnt := buf.refcnt - 1 }).First b :=
      (Bcache.first_setBuf keeps).mpr (coherent.first b live)
    dsimp only [Bio.brelse]
    split
    · exact Bcache.first_move lined first firstB
    · exact first

theorem bread (coherent : Coherent c) {dev blockno : Nat} {c' : Cache NBUF}
    (got : c.bread pid dev blockno = .ok (b, c')) : Coherent c' := by
  obtain ⟨bc, fetched, rfl⟩ := Cache.bread_ok got
  obtain ⟨f, keeps, ⟨found, rfl⟩ | ⟨missing, free, rfl⟩⟩ := coherent.lined.bread_cases fetched
  · have block := List.find?_some found
    simp only [Bcache.isBlock, decide_eq_true_eq] at block
    have firstB : c.bcache.First b := by rw [Bcache.First, block.1, block.2]; exact found
    refine ⟨?_, fun x => ?_, fun h mem => ?_, ?_⟩ <;> dsimp only
    · exact coherent.lined.setBuf
    · by_cases xb : x = b
      · subst xb; simp [(keeps _).2.2, coherent.counted, List.countP_append]; omega
      · simp [xb, coherent.counted, List.countP_append, Ne.symm xb]
    · rcases List.mem_append.mp mem with mem | mem
      · have := coherent.held h mem
        by_cases hb : h.buf = b
        · rw [hb] at this ⊢; simpa [(keeps _).1, (keeps _).2.1] using this
        · simpa [hb] using this
      · rw [List.mem_singleton] at mem; subst mem; simpa [(keeps _).1, (keeps _).2.1] using block
    · exact Bcache.first_of_setBuf (fun buf => ⟨(keeps _).1, (keeps _).2.1⟩) coherent.first firstB
  · have zero : (c.bcache.buf b).refcnt = 0 := by simpa [Bcache.isFree] using List.find?_some free
    have unheld := coherent.counted b
    have unheld' : ∀ h ∈ c.holds, h.buf ≠ b := by
      intro h mem same
      have : 0 < c.holds.countP (fun h => h.buf = b) := List.countP_pos_iff.mpr ⟨h, mem, by simp [same]⟩
      omega
    have absent (y : Fin NBUF) : c.bcache.isBlock dev blockno y = false := by
      simpa using List.find?_eq_none.mp missing y (coherent.lined.mem y)
    refine ⟨?_, fun x => ?_, fun h mem => ?_, ?_⟩ <;> dsimp only
    · exact coherent.lined.setBuf
    · by_cases xb : x = b
      · subst xb; simp [(keeps _).2.2, List.countP_append]; omega
      · simp [xb, coherent.counted, List.countP_append, Ne.symm xb]
    · rcases List.mem_append.mp mem with mem | mem
      · simpa [unheld' h mem] using coherent.held h mem
      · rw [List.mem_singleton] at mem; subst mem; simp [(keeps _).1, (keeps _).2.1]
    · intro x live
      by_cases xb : x = b
      · subst xb
        rw [Bcache.First]
        simp only [Bcache.setBuf_self, Function.comp_apply, (keeps _).1, (keeps _).2.1]
        refine find?_unique (coherent.lined.mem x) (by simp [Bcache.isBlock, (keeps _).1, (keeps _).2.1])
          fun y _ passes => ?_
        by_contra yx
        rw [Bcache.isBlock_setBuf_of_ne yx, absent y] at passes
        exact Bool.false_ne_true passes
      · have first := coherent.first x (by simpa [Bcache.Live, xb] using live)
        rw [Bcache.First] at first ⊢
        refine find?_of_imp first (fun y passes => ?_) (by simp [Bcache.isBlock, xb])
        by_cases yb : y = b
        · subst yb
          simp only [Bcache.isBlock, Bcache.setBuf_of_ne xb, Bcache.setBuf_self, Function.comp_apply,
            (keeps _).1, (keeps _).2.1, decide_eq_true_eq] at passes
          simpa [Bcache.isBlock, passes.1, passes.2] using absent x
        · simpa [Bcache.isBlock, yb, xb] using passes

theorem step (coherent : Coherent c) {e : Event NBUF} {c' : Cache NBUF} (allowed : c.Allowed e)
    (step : c.step e = .ok c') : Coherent c' := by
  cases e with
  | bread =>
    obtain ⟨_, got⟩ := Cache.step_bread step
    exact coherent.bread got
  | bwrite => cases step; exact coherent.bwrite _
  | brelse => cases step; exact coherent.brelse allowed
  | bpin => cases step; exact coherent.bpin allowed
  | bunpin => cases step; exact coherent.bunpin allowed.1 allowed.2
  | modify => cases step; exact coherent.modify _ _

end Coherent

theorem brelse_order {bc : Bcache NBUF} (lined : bc.Lined) (b : Fin NBUF) :
    (Bio.brelse bc b).order =
      if ((Bio.brelse bc b).buf b).refcnt = 0 then b :: bc.order.erase b else bc.order := by
  rw [brelse_buf]
  dsimp only [Bio.brelse]
  split
  · exact (lined.setBuf.move b).2
  · rfl

theorem Bcache.Lined.bread_block_kept {c c' : Cache NBUF} {pid dev blockno : Nat} {b₀ : Fin NBUF}
    (lined : c.bcache.Lined) (got : c.bread pid dev blockno = .ok (b₀, c')) (b : Fin NBUF)
    (counted : 0 < (c.bcache.buf b).refcnt) :
    (c'.bcache.buf b).dev = (c.bcache.buf b).dev ∧
      (c'.bcache.buf b).blockno = (c.bcache.buf b).blockno := by
  obtain ⟨bc, fetched, rfl⟩ := Cache.bread_ok got
  obtain ⟨f, keeps, ⟨-, rfl⟩ | ⟨-, free, rfl⟩⟩ := lined.bread_cases fetched
  · exact Bcache.block_setBuf (by intro; exact ⟨(keeps _).1, (keeps _).2.1⟩) b
  · have zero : (c.bcache.buf b₀).refcnt = 0 := by
      simpa [Bcache.isFree] using List.find?_some free
    have ne : b ≠ b₀ := fun eq => by rw [eq] at counted; omega
    simp [ne]

theorem Coherent.block_kept {c c' : Cache NBUF} {e : Event NBUF} (coherent : Coherent c)
    (step : c.step e = .ok c') (b : Fin NBUF) (counted : 0 < (c.bcache.buf b).refcnt) :
    (c'.bcache.buf b).dev = (c.bcache.buf b).dev ∧
      (c'.bcache.buf b).blockno = (c.bcache.buf b).blockno := by
  cases e with
  | bread =>
    obtain ⟨_, got⟩ := Cache.step_bread step
    exact coherent.lined.bread_block_kept got b counted
  | bwrite => cases step; exact ⟨rfl, rfl⟩
  | brelse =>
    cases step; dsimp only [Cache.brelse]; rw [brelse_buf]
    exact Bcache.block_setBuf (by intro; exact ⟨rfl, rfl⟩) b
  | bpin | bunpin | modify =>
    cases step; dsimp only [Cache.bpin, Cache.bunpin, Cache.modify, Bio.bpin, Bio.bunpin]
    exact Bcache.block_setBuf (by intro; exact ⟨rfl, rfl⟩) b

theorem coherent_reachable {c : Cache NBUF} (reach : Reachable c) : Coherent c := by
  induction reach with
  | init disk => exact coherent_init disk
  | step _ _ allowed step coherent => exact coherent.step allowed step

/-- Every `refcnt` counts the holders and pins of its buffer, and no two buffers in use share a block. -/
theorem bcache_coherent {c : Cache NBUF} (reach : Reachable c) :
    (∀ b, (c.bcache.buf b).refcnt = c.holds.countP (fun h => h.buf = b) + c.pins.count b) ∧
    (∀ pid b, c.Holding pid b → 0 < (c.bcache.buf b).refcnt) ∧
    (∀ b₁ b₂, b₁ ≠ b₂ → (0 < (c.bcache.buf b₁).refcnt ∨ (c.bcache.buf b₁).valid) →
      (0 < (c.bcache.buf b₂).refcnt ∨ (c.bcache.buf b₂).valid) →
      ((c.bcache.buf b₁).dev, (c.bcache.buf b₁).blockno) ≠
        ((c.bcache.buf b₂).dev, (c.bcache.buf b₂).blockno)) ∧
    (∀ h ∈ c.holds, (c.bcache.buf h.buf).dev = h.dev ∧ (c.bcache.buf h.buf).blockno = h.blockno) ∧
    (∀ e c', c.Allowed e → c.step e = .ok c' → ∀ b, 0 < (c.bcache.buf b).refcnt →
      (c'.bcache.buf b).dev = (c.bcache.buf b).dev ∧
        (c'.bcache.buf b).blockno = (c.bcache.buf b).blockno) := by
  have coherent := coherent_reachable reach
  refine ⟨coherent.counted, fun _ _ => coherent.holding_pos, fun b₁ b₂ ne live₁ live₂ same => ne ?_,
    coherent.held, fun _ _ _ step => coherent.block_kept step⟩
  simp only [Prod.mk.injEq] at same
  exact coherent.unique live₁ live₂ same.1 same.2

/-- Two buffers over a zeroed disk, after process 1 reads block 5 of device 0. -/
def oneRead : Cache 2 := ((Cache.init fun _ _ => 0).step (.bread 1 0 5)).getD (.init fun _ _ => 0)

theorem oneRead_reachable : Reachable oneRead := .step (.bread 1 0 5) (.init _) trivial rfl

theorem bcache_coherent_one_read :
    Reachable oneRead ∧
    ((∀ b, (oneRead.bcache.buf b).refcnt =
        oneRead.holds.countP (fun h => h.buf = b) + oneRead.pins.count b) ∧
    (∀ pid b, oneRead.Holding pid b → 0 < (oneRead.bcache.buf b).refcnt) ∧
    (∀ b₁ b₂, b₁ ≠ b₂ → (0 < (oneRead.bcache.buf b₁).refcnt ∨ (oneRead.bcache.buf b₁).valid) →
      (0 < (oneRead.bcache.buf b₂).refcnt ∨ (oneRead.bcache.buf b₂).valid) →
      ((oneRead.bcache.buf b₁).dev, (oneRead.bcache.buf b₁).blockno) ≠
        ((oneRead.bcache.buf b₂).dev, (oneRead.bcache.buf b₂).blockno)) ∧
    (∀ h ∈ oneRead.holds, (oneRead.bcache.buf h.buf).dev = h.dev ∧
      (oneRead.bcache.buf h.buf).blockno = h.blockno) ∧
    (∀ e c', oneRead.Allowed e → oneRead.step e = .ok c' → ∀ b, 0 < (oneRead.bcache.buf b).refcnt →
      (c'.bcache.buf b).dev = (oneRead.bcache.buf b).dev ∧
        (c'.bcache.buf b).blockno = (oneRead.bcache.buf b).blockno)) :=
  ⟨oneRead_reachable, bcache_coherent oneRead_reachable⟩

/-! ### Least recently released first out -/

/-- `a` was released more recently than `b`. -/
def Newer (released : Fin NBUF → Option Nat) (a b : Fin NBUF) : Prop :=
  match released a, released b with
  | some t, some u => u < t
  | some _, none => True
  | none, some _ => False
  | none, none => b < a

/-- The list runs from the most to the least recently released buffer, and the clock is ahead of
every release time. -/
structure Recency (c : Cache NBUF) : Prop where
  sorted : c.bcache.order.Pairwise (Newer c.released)
  past : ∀ b t, c.released b = some t → t < c.clock

theorem recency_init (disk : Disk) : Recency (Cache.init disk : Cache NBUF) where
  sorted := by
    rw [Cache.init, Bcache.binit_lined.2, List.pairwise_reverse]
    exact (List.pairwise_lt_finRange NBUF).imp fun lt => lt
  past _ _ none_eq := by cases none_eq

namespace Recency

variable {c : Cache NBUF}

theorem brelse (recency : Recency c) (lined : c.bcache.Lined) (b : Fin NBUF)
    (holds : List (Hold NBUF)) :
    Recency { c with
      bcache := Bio.brelse c.bcache b
      holds := holds
      clock := if ((Bio.brelse c.bcache b).buf b).refcnt = 0 then c.clock + 1 else c.clock
      released := if ((Bio.brelse c.bcache b).buf b).refcnt = 0 then
        Function.update c.released b (some c.clock) else c.released } := by
  have order := brelse_order lined b
  split_ifs at order ⊢ with last
  · refine ⟨?_, fun x t released => ?_⟩ <;> dsimp only
    · rw [order, List.pairwise_cons]
      refine ⟨fun x mem => ?_, ?_⟩
      · have xb := ((lined.ring.nodup.mem_erase_iff).mp mem).1
        have := recency.past x
        unfold Newer
        rw [Function.update_same, Function.update_noteq xb]
        split <;> simp_all
      · refine (recency.sorted.sublist (List.erase_sublist _ _)).imp_of_mem fun mx my newer => ?_
        have xb := ((lined.ring.nodup.mem_erase_iff).mp mx).1
        have yb := ((lined.ring.nodup.mem_erase_iff).mp my).1
        unfold Newer at newer ⊢
        rwa [Function.update_noteq xb, Function.update_noteq yb]
    · dsimp only at released
      by_cases xb : x = b
      · subst xb; simp at released; omega
      · rw [Function.update_noteq xb] at released; have := recency.past x t released; omega
  · exact ⟨order ▸ recency.sorted, recency.past⟩

theorem step (recency : Recency c) (coherent : Coherent c) {e : Event NBUF} {c' : Cache NBUF}
    (step : c.step e = .ok c') : Recency c' := by
  cases e with
  | bread =>
    obtain ⟨_, got⟩ := Cache.step_bread step
    obtain ⟨bc, fetched, rfl⟩ := Cache.bread_ok got
    obtain ⟨f, -, ⟨-, rfl⟩ | ⟨-, -, rfl⟩⟩ := coherent.lined.bread_cases fetched <;>
      exact ⟨recency.sorted, recency.past⟩
  | brelse => cases step; exact recency.brelse coherent.lined _ _
  | bwrite | bpin | bunpin | modify => cases step; exact ⟨recency.sorted, recency.past⟩

end Recency

theorem recency_reachable {c : Cache NBUF} (reach : Reachable c) : Recency c := by
  induction reach with
  | init disk => exact recency_init disk
  | step _ reach _ step recency => exact recency.step (coherent_reachable reach) step

/-- The list read from `bcache.head.next` holds every buffer once, from the most to the least recently released. -/
theorem bcache_lru {c : Cache NBUF} (reach : Reachable c) :
    c.bcache.order.Perm (List.finRange NBUF) ∧ c.bcache.order.Pairwise (Newer c.released) ∧
    (∀ dev blockno b bc, (∀ x, ¬((c.bcache.buf x).dev = dev ∧ (c.bcache.buf x).blockno = blockno)) →
      bget c.bcache dev blockno = .ok (b, bc) →
      (c.bcache.buf b).refcnt = 0 ∧ ∀ x, x ≠ b → (c.bcache.buf x).refcnt = 0 → Newer c.released x b) ∧
    (∀ dev blockno, bget c.bcache dev blockno = .panic "bget: no buffers" ↔
      (∀ x, ¬((c.bcache.buf x).dev = dev ∧ (c.bcache.buf x).blockno = blockno)) ∧
        ∀ x, 0 < (c.bcache.buf x).refcnt) ∧
    (∀ dev blockno, bget c.bcache dev blockno ≠ .stuck) := by
  have lined := (coherent_reachable reach).lined
  have sorted := (recency_reachable reach).sorted
  have missing {dev blockno : Nat} :
      c.bcache.order.find? (c.bcache.isBlock dev blockno) = none ↔
        ∀ x, ¬((c.bcache.buf x).dev = dev ∧ (c.bcache.buf x).blockno = blockno) := by
    simp [List.find?_eq_none, Bcache.isBlock, lined.mem]
  have busy : c.bcache.order.reverse.find? c.bcache.isFree = none ↔ ∀ x, 0 < (c.bcache.buf x).refcnt := by
    simp [List.find?_eq_none, Bcache.isFree, lined.mem, Nat.pos_iff_ne_zero]
  refine ⟨lined.perm, sorted, fun dev blockno b bc absent got => ?_, fun dev blockno => ?_,
    fun dev blockno => ?_⟩
  · rw [lined.bget_eq, missing.mpr absent] at got
    cases free : c.bcache.order.reverse.find? c.bcache.isFree with
    | none => rw [free] at got; cases got
    | some b₀ =>
      rw [free] at got
      cases got
      refine ⟨by simpa [Bcache.isFree] using List.find?_some free, fun x xb freeX => ?_⟩
      exact find?_reverse_of_pairwise sorted free x (lined.mem x) (by simpa [Bcache.isFree] using freeX) xb
  · rw [lined.bget_eq, ← missing, ← busy]
    cases c.bcache.order.find? (c.bcache.isBlock dev blockno) <;>
      cases c.bcache.order.reverse.find? c.bcache.isFree <;> simp
  · rw [lined.bget_eq]
    cases c.bcache.order.find? (c.bcache.isBlock dev blockno) <;>
      cases c.bcache.order.reverse.find? c.bcache.isFree <;> simp

/-- `oneRead` after process 1 releases the buffer it read, buffer 0, recycled from the back. -/
def readReleased : Cache 2 := (oneRead.step (.brelse 1 0)).getD oneRead

theorem bcache_lru_read_released :
    Reachable readReleased ∧
    (readReleased.bcache.order.Perm (List.finRange 2) ∧
    readReleased.bcache.order.Pairwise (Newer readReleased.released) ∧
    (∀ dev blockno b bc, (∀ x, ¬((readReleased.bcache.buf x).dev = dev ∧
        (readReleased.bcache.buf x).blockno = blockno)) →
      bget readReleased.bcache dev blockno = .ok (b, bc) →
      (readReleased.bcache.buf b).refcnt = 0 ∧
        ∀ x, x ≠ b → (readReleased.bcache.buf x).refcnt = 0 → Newer readReleased.released x b) ∧
    (∀ dev blockno, bget readReleased.bcache dev blockno = .panic "bget: no buffers" ↔
      (∀ x, ¬((readReleased.bcache.buf x).dev = dev ∧ (readReleased.bcache.buf x).blockno = blockno)) ∧
        ∀ x, 0 < (readReleased.bcache.buf x).refcnt) ∧
    (∀ dev blockno, bget readReleased.bcache dev blockno ≠ .stuck)) :=
  have reach : Reachable readReleased :=
    .step (.brelse 1 0) oneRead_reachable ⟨_, List.mem_singleton_self _, rfl, rfl⟩ rfl
  ⟨reach, bcache_lru reach⟩

end Xv6.Bio
