import Xv6.Bio.Cache

/-!
# The list stays one cycle

Whatever `bio.c`'s functions are called with, and in whatever order, `binit`'s list stays a
single cycle through the head and every buffer: only `brelse` writes the pointers, and it takes a
buffer off the list and puts it back first. So `prev` undoes `next` at every node, and both loops
of `bget` come back to the head within `NBUF` buffers, having met every buffer.
-/

namespace Xv6.Bio

variable {NBUF : Nat}

/-- The caches that `bio.c`'s calls leave from `binit`, made in any order and on any arguments, with
no contract on the callers; a store into a buffer's `data` is allowed too. -/
inductive Reached : Bcache NBUF → Prop
  | binit : Reached (binit NBUF)
  | bget {bc bc' : Bcache NBUF} {dev blockno : Nat} {b : Fin NBUF} :
      Reached bc → bget bc dev blockno = .ok (b, bc') → Reached bc'
  | bread {bc bc' : Bcache NBUF} {disk : Disk} {dev blockno : Nat} {b : Fin NBUF} :
      Reached bc → bread bc disk dev blockno = .ok (b, bc') → Reached bc'
  | brelse {bc : Bcache NBUF} (b : Fin NBUF) : Reached bc → Reached (brelse bc b)
  | bpin {bc : Bcache NBUF} (b : Fin NBUF) : Reached bc → Reached (bpin bc b)
  | bunpin {bc : Bcache NBUF} (b : Fin NBUF) : Reached bc → Reached (bunpin bc b)
  | modify {bc : Bcache NBUF} (b : Fin NBUF) (data : Block) :
      Reached bc → Reached (bc.setBuf b fun buf => { buf with data := data })

section
variable {bc bc' : Bcache NBUF} {dev blockno : Nat} {b : Fin NBUF}

theorem bget_links (got : bget bc dev blockno = .ok (b, bc')) : bc'.links = bc.links := by
  unfold bget at got
  split at got
  · cases got; rfl
  · cases got
  · split at got <;> cases got
    rfl

theorem bread_links {disk : Disk} (got : bread bc disk dev blockno = .ok (b, bc')) :
    bc'.links = bc.links := by
  obtain ⟨⟨b₀, bc₀⟩, claimed, filled⟩ := Ends.bind_eq_ok.mp got
  rw [← bget_links claimed]
  dsimp only at filled
  split at filled <;> cases filled <;> rfl

theorem Bcache.Lined.of_links (lined : bc.Lined) (same : bc'.links = bc.links) : bc'.Lined := by
  have order : bc'.order = bc.order := by rw [Bcache.order, Bcache.order, same]
  exact ⟨by rw [order, same]; exact lined.ring, order ▸ lined.perm⟩

end

theorem Reached.lined {bc : Bcache NBUF} (reached : Reached bc) : bc.Lined := by
  induction reached with
  | binit => exact Bcache.binit_lined.1
  | bget _ got lined => exact lined.of_links (bget_links got)
  | bread _ got lined => exact lined.of_links (bread_links got)
  | brelse b _ lined =>
    dsimp only [Bio.brelse]
    split
    · exact (lined.setBuf.move b).1
    · exact lined.setBuf
  | bpin _ _ lined | bunpin _ _ lined | modify _ _ _ lined => exact lined.setBuf

theorem Reachable.reached {c : Cache NBUF} (reach : Reachable c) : Reached c.bcache := by
  induction reach with
  | init => exact .binit
  | step e _ _ step reached =>
    cases e with
    | bread =>
      obtain ⟨_, got⟩ := Cache.step_bread step
      obtain ⟨_, fetched, rfl⟩ := Cache.bread_ok got
      exact reached.bread fetched
    | bwrite => cases step; exact reached
    | brelse _ b => cases step; exact reached.brelse b
    | bpin _ b => cases step; exact reached.bpin b
    | bunpin _ b => cases step; exact reached.bunpin b
    | modify _ b data => cases step; exact reached.modify b data

/-- From `binit`, after any calls of `bget`, `bread`, `brelse`, `bpin` and `bunpin`. -/
theorem bcache_cycle {bc : Bcache NBUF} (reached : Reached bc) :
    bc.order.Perm (List.finRange NBUF) ∧ Ring bc.links bc.order ∧
    (∀ x, bc.links.prev (bc.links.next x) = x ∧ bc.links.next (bc.links.prev x) = x) ∧
    walk bc.links.prev NBUF (bc.links.prev none) = bc.order.reverse ∧
    (∀ (p : Fin NBUF → Bool) (fuel : Nat), NBUF < fuel →
      scan bc.links.next p fuel (bc.links.next none) = (bc.order.find? p).elim .head .found ∧
      scan bc.links.prev p fuel (bc.links.prev none) = (bc.order.reverse.find? p).elim .head .found) ∧
    ∀ b, (brelse bc b).order =
      if ((brelse bc b).buf b).refcnt = 0 then b :: bc.order.erase b else bc.order := by
  have lined := reached.lined
  have ring := lined.ring
  have reversed := List.nodup_reverse.mpr ring.nodup
  have length : bc.order.length = NBUF := lined.length
  refine ⟨lined.perm, ring, fun x => ⟨ring.forward.inverse ring.backward ring.nodup lined.mem x, ?_⟩,
    walk_spells ring.backward reversed NBUF (by simp [length]), fun p fuel enough =>
      ⟨scan_spells ring.forward ring.nodup p fuel (by omega),
        scan_spells ring.backward reversed p fuel (by simp [length, enough])⟩, brelse_order lined⟩
  exact ring.backward.inverse (by rw [List.reverse_reverse]; exact ring.forward) reversed
    (fun b => List.mem_reverse.mpr (lined.mem b)) x

/-- The buffers of `readReleased`: process 1 read block 5 into buffer 0 and released it. -/
theorem bcache_cycle_read_released :
    Reached readReleased.bcache ∧
    (readReleased.bcache.order.Perm (List.finRange 2) ∧
    Ring readReleased.bcache.links readReleased.bcache.order ∧
    (∀ x, readReleased.bcache.links.prev (readReleased.bcache.links.next x) = x ∧
      readReleased.bcache.links.next (readReleased.bcache.links.prev x) = x) ∧
    walk readReleased.bcache.links.prev 2 (readReleased.bcache.links.prev none) =
      readReleased.bcache.order.reverse ∧
    (∀ (p : Fin 2 → Bool) (fuel : Nat), 2 < fuel →
      scan readReleased.bcache.links.next p fuel (readReleased.bcache.links.next none) =
        (readReleased.bcache.order.find? p).elim .head .found ∧
      scan readReleased.bcache.links.prev p fuel (readReleased.bcache.links.prev none) =
        (readReleased.bcache.order.reverse.find? p).elim .head .found) ∧
    ∀ b, (brelse readReleased.bcache b).order =
      if ((brelse readReleased.bcache b).buf b).refcnt = 0 then b :: readReleased.bcache.order.erase b
      else readReleased.bcache.order) :=
  have reached : Reached readReleased.bcache :=
    (Reachable.step (.brelse 1 0) oneRead_reachable ⟨_, List.mem_singleton_self _, rfl, rfl⟩ rfl).reached
  ⟨reached, bcache_cycle reached⟩

end Xv6.Bio
