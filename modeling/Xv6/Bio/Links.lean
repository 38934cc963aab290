import Mathlib.Data.List.Nodup

/-!
# The buffer cache's list

`bio.c` keeps its buffers on a circular doubly linked list through `prev`/`next`, with
`bcache.head` as sentinel. `Links` holds those pointers (`none` is the head), `unlink` and
`pushFront` are the pointer writes of `brelse` and `binit`, and `scan` and `walk` are the loops
that follow them. `Ring L l` says the pointers spell the list `l` from `head.next`, and the
lemmas here show that each pointer operation is a list operation on `l`: unlinking erases,
pushing conses, and a scan finds the first buffer of `l`, or of its reverse, that passes.
-/

namespace Xv6.Bio

/-- The `prev`/`next` pointers of the list's nodes; `none` stands for `&bcache.head`. -/
structure Links (α : Type) where
  next : Option α → Option α
  prev : Option α → Option α

variable {α : Type} [DecidableEq α]

namespace Links

def setNext (L : Links α) (x y : Option α) : Links α := { L with next := Function.update L.next x y }

def setPrev (L : Links α) (x y : Option α) : Links α := { L with prev := Function.update L.prev x y }

/-- `b->next->prev = b->prev; b->prev->next = b->next;`, the first lines of `brelse`'s move. -/
def unlink (L : Links α) (b : α) : Links α :=
  let L := L.setPrev (L.next (some b)) (L.prev (some b))
  L.setNext (L.prev (some b)) (L.next (some b))

/-- `b->next = bcache.head.next; b->prev = &bcache.head; bcache.head.next->prev = b;
bcache.head.next = b;`, the body of `binit`'s loop and the rest of `brelse`'s move. -/
def pushFront (L : Links α) (b : α) : Links α :=
  let L := L.setNext (some b) (L.next none)
  let L := L.setPrev (some b) none
  let L := L.setPrev (L.next none) (some b)
  L.setNext none (some b)

end Links

/-- How a loop `for (b = start; b != &bcache.head; b = step(b))` ends. -/
inductive Scan (α : Type)
  | found (b : α)
  | head
  | stuck
  deriving DecidableEq

/-- The loop `for (b = start; b != &bcache.head; b = step(b)) if (p(b)) ...`. -/
def scan (step : Option α → Option α) (p : α → Bool) : Nat → Option α → Scan α
  | 0, _ => .stuck
  | _ + 1, none => .head
  | fuel + 1, some b => if p b then .found b else scan step p fuel (step (some b))

/-- The buffers met following `step` from `start` until the head, at most `fuel` of them. -/
def walk (step : Option α → Option α) : Nat → Option α → List α
  | 0, _ => []
  | _ + 1, none => []
  | fuel + 1, some b => b :: walk step fuel (step (some b))

/-! ### The list the pointers spell -/

/-- The element after `x` in `l`; `none` when `x` is last or absent. -/
def after : List α → α → Option α
  | [], _ => none
  | a :: l, x => if a = x then l.head? else after l x

/-- `step` spells `l` from the head. -/
def Spells (step : Option α → Option α) (l : List α) : Prop :=
  step none = l.head? ∧ ∀ b ∈ l, step (some b) = after l b

/-- The pointers spell `l` forwards through `next` and backwards through `prev`. -/
structure Ring (L : Links α) (l : List α) : Prop where
  nodup : l.Nodup
  forward : Spells L.next l
  backward : Spells L.prev l.reverse

theorem after_cons_self (x : α) (l : List α) : after (x :: l) x = l.head? := by simp [after]

theorem after_cons_of_ne {a x : α} (l : List α) (ne : a ≠ x) : after (a :: l) x = after l x := by
  simp [after, ne]

theorem after_append (u v : List α) (x : α) :
    after (u ++ v) x = if x ∈ u then (after u x).or v.head? else after v x := by
  induction u with
  | nil => simp
  | cons a u ih =>
    by_cases ax : a = x
    · subst ax; simp [after]
    · rw [List.cons_append, after, if_neg ax, ih]
      simp [after, ax, Ne.symm ax]

theorem after_eq_none_iff {x : α} {l : List α} (nodup : l.Nodup) (mem : x ∈ l) :
    after l x = none ↔ l.getLast? = some x := by
  induction l with
  | nil => cases mem
  | cons a l ih =>
    rw [List.nodup_cons] at nodup
    rw [List.getLast?_cons, Option.some_inj]
    by_cases ax : a = x
    · subst ax
      cases l with
      | nil => simp [after]
      | cons c l =>
        have last := List.getLast_mem (List.cons_ne_nil c l)
        simp only [after, if_true, List.head?_cons, List.getLast?_cons_cons, reduceCtorEq,
          false_iff, List.getLast?_eq_getLast _ (List.cons_ne_nil c l), Option.getD_some]
        exact fun eq => nodup.1 (eq ▸ last)
    · have mem : x ∈ l := (List.mem_cons.mp mem).resolve_left (Ne.symm ax)
      rw [after, if_neg ax, ih nodup.2 mem, List.getLast?_eq_getLast _ (List.ne_nil_of_mem mem)]
      simp

omit [DecidableEq α] in
theorem nodup_split {b : α} {pre suf : List α} (nodup : (pre ++ b :: suf).Nodup) :
    b ∉ pre ∧ b ∉ suf ∧ (pre ++ suf).Nodup := by
  rw [List.nodup_middle, List.nodup_cons, List.mem_append, not_or] at nodup
  exact ⟨nodup.1.1, nodup.1.2, nodup.2⟩

theorem after_split {b : α} {pre suf : List α} (nodup : (pre ++ b :: suf).Nodup) :
    after (pre ++ b :: suf) b = suf.head? := by
  simp [after_append, (nodup_split nodup).1, after]

theorem Spells.erase {step : Option α → Option α} {l : List α} {b : α} (spells : Spells step l)
    (nodup : l.Nodup) (mem : b ∈ l) :
    Spells (Function.update step (after l.reverse b) (after l b)) (l.erase b) := by
  obtain ⟨pre, suf, rfl⟩ := List.append_of_mem mem
  obtain ⟨notPre, notSuf, nodup'⟩ := nodup_split nodup
  have pred : after (pre ++ b :: suf).reverse b = pre.getLast? := by
    rw [List.reverse_append, List.reverse_cons, List.append_assoc, List.singleton_append,
      after_append]
    simp [notSuf, after, List.head?_reverse]
  rw [pred, after_split nodup, List.erase_append_right _ notPre, List.erase_cons_head]
  constructor
  · cases pre with
    | nil => simp
    | cons a pre => rw [List.getLast?_cons, Function.update_noteq (by simp), spells.1]; rfl
  · intro x mem
    by_cases last : pre.getLast? = some x
    · have inPre := List.mem_of_getLast?_eq_some last
      rw [last, Function.update_same, after_append, if_pos inPre,
        (after_eq_none_iff nodup'.of_append_left inPre).mpr last, Option.none_or]
    · have ne : some x ≠ pre.getLast? := Ne.symm last
      have ne_b : x ≠ b := by rintro rfl; simp_all
      rw [Function.update_noteq ne, spells.2 x (by simp_all), after_append, after_append]
      by_cases inPre : x ∈ pre
      · have : after pre x ≠ none := fun none_after =>
          last ((after_eq_none_iff nodup'.of_append_left inPre).mp none_after)
        obtain ⟨y, hy⟩ := Option.ne_none_iff_exists'.mp this
        simp [inPre, hy]
      · simp [inPre, after, Ne.symm ne_b]

theorem Spells.cons {step : Option α → Option α} {l : List α} {b : α} (spells : Spells step l)
    (fresh : b ∉ l) :
    Spells (Function.update (Function.update step (some b) (step none)) none (some b)) (b :: l) := by
  refine ⟨by simp, fun x mem => ?_⟩
  rw [Function.update_noteq (by simp)]
  by_cases xb : x = b
  · subst xb; rw [Function.update_same, spells.1, after_cons_self]
  · have mem : x ∈ l := (List.mem_cons.mp mem).resolve_left xb
    rw [Function.update_noteq (by simpa using xb), spells.2 x mem, after_cons_of_ne l (Ne.symm xb)]

theorem Spells.concat {step : Option α → Option α} {m : List α} {b : α} (spells : Spells step m)
    (nodup : m.Nodup) (fresh : b ∉ m) :
    Spells (Function.update (Function.update step (some b) none) m.getLast? (some b)) (m ++ [b]) := by
  constructor
  · cases m with
    | nil => simp
    | cons a m => rw [List.getLast?_cons, Function.update_noteq (by simp),
        Function.update_noteq (by simp), spells.1]; rfl
  · intro x mem
    rw [after_append]
    by_cases xb : x = b
    · subst xb
      have : m.getLast? ≠ some x := fun last => fresh (List.mem_of_getLast?_eq_some last)
      rw [Function.update_noteq (Ne.symm this), Function.update_same, if_neg fresh, after_cons_self]
      rfl
    · have mem : x ∈ m := by simpa [xb] using mem
      rw [if_pos mem]
      by_cases last : m.getLast? = some x
      · rw [last, Function.update_same, (after_eq_none_iff nodup mem).mpr last]; rfl
      · rw [Function.update_noteq (Ne.symm last), Function.update_noteq (by simpa using xb),
          spells.2 x mem]
        obtain ⟨y, hy⟩ := Option.ne_none_iff_exists'.mp
          fun none_after => last ((after_eq_none_iff nodup mem).mp none_after)
        simp [hy]

omit [DecidableEq α] in
theorem Ring.reverse_erase {l : List α} [DecidableEq α] (nodup : l.Nodup) (b : α) :
    (l.erase b).reverse = l.reverse.erase b := by
  rw [nodup.erase_eq_filter, (List.nodup_reverse.mpr nodup).erase_eq_filter, List.filter_reverse]

namespace Links

theorem unlink_next (L : Links α) (b : α) :
    (L.unlink b).next = Function.update L.next (L.prev (some b)) (L.next (some b)) := by
  have : Function.update L.prev (L.next (some b)) (L.prev (some b)) (some b) = L.prev (some b) := by
    rw [Function.update_apply]; split <;> rfl
  simp only [unlink, setNext, setPrev, this]

theorem unlink_prev (L : Links α) (b : α) :
    (L.unlink b).prev = Function.update L.prev (L.next (some b)) (L.prev (some b)) := rfl

theorem pushFront_next (L : Links α) (b : α) :
    (L.pushFront b).next = Function.update (Function.update L.next (some b) (L.next none)) none (some b) :=
  rfl

theorem pushFront_prev (L : Links α) (b : α) :
    (L.pushFront b).prev =
      Function.update (Function.update L.prev (some b) none) (L.next none) (some b) := by
  simp only [pushFront, setNext, setPrev, Function.update_noteq (Option.some_ne_none b).symm]

end Links

variable {L : Links α} {l : List α} {b : α}

theorem Ring.unlink (ring : Ring L l) (mem : b ∈ l) : Ring (L.unlink b) (l.erase b) := by
  refine ⟨ring.nodup.erase b, ?_, ?_⟩
  · rw [L.unlink_next, ring.backward.2 b (List.mem_reverse.mpr mem), ring.forward.2 b mem]
    exact ring.forward.erase ring.nodup mem
  · rw [L.unlink_prev, ring.backward.2 b (List.mem_reverse.mpr mem), ring.forward.2 b mem,
      Ring.reverse_erase ring.nodup]
    have := ring.backward.erase (List.nodup_reverse.mpr ring.nodup) (List.mem_reverse.mpr mem)
    rwa [List.reverse_reverse] at this

theorem Ring.pushFront (ring : Ring L l) (fresh : b ∉ l) : Ring (L.pushFront b) (b :: l) := by
  refine ⟨List.nodup_cons.mpr ⟨fresh, ring.nodup⟩, ?_, ?_⟩
  · rw [L.pushFront_next]; exact ring.forward.cons fresh
  · rw [L.pushFront_prev, ring.forward.1, ← List.getLast?_reverse, List.reverse_cons]
    exact ring.backward.concat (List.nodup_reverse.mpr ring.nodup) (by simpa using fresh)

theorem Ring.empty : Ring (⟨fun _ => none, fun _ => none⟩ : Links α) [] :=
  ⟨List.nodup_nil, ⟨rfl, by simp⟩, ⟨rfl, by simp⟩⟩

theorem Ring.foldl_pushFront (ring : Ring L l) (xs : List α) (nodup : (xs.reverse ++ l).Nodup) :
    Ring (xs.foldl Links.pushFront L) (xs.reverse ++ l) := by
  induction xs generalizing L l with
  | nil => simpa using ring
  | cons x xs ih =>
    rw [List.reverse_cons, List.append_assoc, List.singleton_append] at nodup ⊢
    exact ih (ring.pushFront (nodup_split nodup).2.1) nodup

/-! ### Finding -/

omit [DecidableEq α] in
theorem find?_of_imp {p p' : α → Bool} {l : List α} {x : α} (found : l.find? p = some x)
    (imp : ∀ y, p' y → p y) (passes : p' x) : l.find? p' = some x := by
  obtain ⟨-, pre, suf, rfl, before⟩ := List.find?_eq_some.mp found
  rw [List.find?_eq_some]
  exact ⟨passes, pre, suf, rfl, fun a mem => by
    have := before a mem; cases h : p' a <;> simp_all⟩

omit [DecidableEq α] in
theorem find?_unique {p : α → Bool} {l : List α} {x : α} (mem : x ∈ l) (passes : p x)
    (only : ∀ y ∈ l, p y → y = x) : l.find? p = some x := by
  cases found : l.find? p with
  | none => exact absurd passes (List.find?_eq_none.mp found x mem)
  | some y => rw [only y (List.mem_of_find?_eq_some found) (List.find?_some found)]

theorem find?_erase_of_not {p : α → Bool} (l : List α) {x : α}
    (fails : p x = false) : (l.erase x).find? p = l.find? p := by
  induction l with
  | nil => rfl
  | cons a l ih =>
    by_cases ax : a = x
    · subst ax; simp [fails]
    · rw [List.erase_cons_tail (by simpa using ax), List.find?_cons, List.find?_cons, ih]

omit [DecidableEq α] in
theorem find?_reverse_of_pairwise {R : α → α → Prop} {p : α → Bool} {l : List α} {b : α}
    (sorted : l.Pairwise R) (found : l.reverse.find? p = some b) :
    ∀ x ∈ l, p x → x ≠ b → R x b := by
  obtain ⟨-, pre, suf, split, before⟩ := List.find?_eq_some.mp found
  intro x mem passes xb
  have later : x ∈ suf := by
    have := List.mem_reverse.mpr mem
    rw [split] at this
    rcases List.mem_append.mp this with inPre | inSuf
    · have := before x inPre
      simp [passes] at this
    · exact (List.mem_cons.mp inSuf).resolve_left xb
  rw [← List.reverse_reverse l, split] at sorted
  simp only [List.reverse_append, List.reverse_cons, List.append_assoc, List.singleton_append,
    List.pairwise_append] at sorted
  exact sorted.2.2 x (List.mem_reverse.mpr later) b (by simp)

/-! ### Following the pointers -/

section
variable {step : Option α → Option α} (spells : Spells step l) (nodup : l.Nodup)
include spells nodup

theorem Spells.step_split {pre suf : List α} {c : α} (split : l = pre ++ c :: suf) :
    step (some c) = suf.head? := by
  rw [spells.2 c (by simp [split]), split, after_split (split ▸ nodup)]

theorem scan_suffix (p : α → Bool) (pre suf : List α) (split : l = pre ++ suf) (fuel : Nat)
    (enough : suf.length < fuel) : scan step p fuel suf.head? = (suf.find? p).elim .head .found := by
  induction suf generalizing pre fuel with
  | nil => cases fuel <;> simp_all [scan]
  | cons c suf ih =>
    obtain ⟨fuel, rfl⟩ : ∃ k, fuel = k + 1 := ⟨fuel - 1, by simp at enough; omega⟩
    rw [List.head?_cons, scan, List.find?_cons]
    cases pc : p c
    · rw [if_neg (by simp), spells.step_split nodup split,
        ih (pre ++ [c]) (by simp [split]) fuel (by simpa using enough)]
    · rfl

theorem scan_spells (p : α → Bool) (fuel : Nat) (enough : l.length < fuel) :
    scan step p fuel (step none) = (l.find? p).elim .head .found := by
  rw [spells.1]; exact scan_suffix spells nodup p [] l rfl fuel enough

theorem walk_suffix (pre suf : List α) (split : l = pre ++ suf) (fuel : Nat)
    (enough : suf.length ≤ fuel) : walk step fuel suf.head? = suf := by
  induction suf generalizing pre fuel with
  | nil => cases fuel <;> rfl
  | cons c suf ih =>
    obtain ⟨fuel, rfl⟩ : ∃ k, fuel = k + 1 := ⟨fuel - 1, by simp at enough; omega⟩
    rw [List.head?_cons, walk, spells.step_split nodup split,
      ih (pre ++ [c]) (by simp [split]) fuel (by simpa using enough)]

theorem walk_spells (fuel : Nat) (enough : l.length ≤ fuel) : walk step fuel (step none) = l := by
  rw [spells.1]; exact walk_suffix spells nodup [] l rfl fuel enough

end

theorem Spells.inverse {f g : Option α → Option α} (forward : Spells f l) (backward : Spells g l.reverse)
    (nodup : l.Nodup) (all : ∀ b, b ∈ l) (x : Option α) : g (f x) = x := by
  cases x with
  | none =>
    rw [forward.1]
    cases l with
    | nil => exact backward.1
    | cons a t =>
      rw [List.head?_cons, backward.2 a (by simp),
        after_eq_none_iff (List.nodup_reverse.mpr nodup) (by simp), List.getLast?_reverse, List.head?_cons]
  | some b =>
    obtain ⟨pre, suf, rfl⟩ := List.append_of_mem (all b)
    rw [forward.2 b (all b), after_split nodup]
    cases suf with
    | nil => rw [List.head?_nil, backward.1]; simp
    | cons c suf =>
      have split : (pre ++ b :: c :: suf).reverse = suf.reverse ++ c :: b :: pre.reverse := by simp
      rw [List.head?_cons, backward.2 c (by simp), split, after_split (split ▸ List.nodup_reverse.mpr nodup)]
      rfl

end Xv6.Bio
