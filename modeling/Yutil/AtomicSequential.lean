import Yutil.AtomicSolo
import Yutil.Service

/-!
# The atomic queues with one call at a time

Between two calls the cells of the values follow one another from the pop
cursor to the push cursor, each marked for its pop, and the other cells are
marked for the pushes to come. A call finds its cell marked for it or a lap
behind, never ahead, and answers as a bounded FIFO, however often the counters
have wrapped.
-/

namespace Yutil

open Interleave

variable {T : Type} {w : Nat}

namespace AtomicQueue

/-- The queue holds the values `xs`, and no call is going on. -/
structure Holds (c : Nat) (q : AtomicQueue (BitVec w) T) (xs : List T) : Prop where
  length_le : xs.length ≤ c
  enqueue : q.enqueuePos = Counter.plus q.dequeuePos xs.length
  taken : ∀ i, i < xs.length → q.cell c (Counter.plus q.dequeuePos i) = ⟨Counter.plus q.dequeuePos (i + 1), xs[i]?⟩
  free : ∀ i, xs.length ≤ i → i < c → q.cell c (Counter.plus q.dequeuePos i) = ⟨Counter.plus q.dequeuePos i, none⟩

def Passed (c : Nat) (q : AtomicQueue (BitVec w) T) : Frame (BitVec w) T → Prop
  | .loadSequence _ pos _ => 0 < Counter.dif (q.cell c pos).sequence pos
  | .loadSequencePop pos _ => 0 < Counter.dif (q.cell c pos).sequence (Counter.plus pos 1)
  | _ => False

def afterPush (c : Nat) (q : AtomicQueue (BitVec w) T) (arg : T) : AtomicQueue (BitVec w) T :=
  { q with
    enqueuePos := Counter.plus q.enqueuePos 1
    cells := Function.update q.cells (Counter.slot c q.enqueuePos) ⟨Counter.plus q.enqueuePos 1, some arg⟩ }

def afterPop (c : Nat) (q : AtomicQueue (BitVec w) T) : AtomicQueue (BitVec w) T :=
  { q with
    dequeuePos := Counter.plus q.dequeuePos 1
    cells := Function.update q.cells (Counter.slot c q.dequeuePos) ⟨Counter.plus q.dequeuePos c, none⟩ }

/-! ## The way of a call -/

/-- Where a push that began on `q` is, when nobody else moves and no operation throws. -/
def Pushing (c : Nat) (q : AtomicQueue (BitVec w) T) (arg : T) (q' : AtomicQueue (BitVec w) T) : Frame (BitVec w) T → Prop
  | .checkClosed a | .loadEnqueue a _ => a = arg ∧ q' = q
  | .loadSequence a pos _ => a = arg ∧ q' = q ∧ pos = q.enqueuePos
  | .claim a pos _ => a = arg ∧ q' = q ∧ pos = q.enqueuePos ∧ Side.push.Ready c q pos
  | .construct a pos => a = arg ∧ pos = q.enqueuePos ∧ Side.push.Ready c q pos ∧
      q' = { q with enqueuePos := Counter.plus q.enqueuePos 1 }
  | .publish _ pos => pos = q.enqueuePos ∧ Side.push.Ready c q pos ∧
      q' = place c { q with enqueuePos := Counter.plus q.enqueuePos 1 } q.enqueuePos (some arg)
  | .done _ (.pushed true _) => Side.push.Ready c q q.enqueuePos ∧ q' = q.afterPush c arg
  | .done _ (.pushed false _) => ¬ Side.push.Ready c q q.enqueuePos ∧ q' = q
  | _ => False

def Popping (c : Nat) (q : AtomicQueue (BitVec w) T) [Elem T] (q' : AtomicQueue (BitVec w) T) : Frame (BitVec w) T → Prop
  | .loadDequeue _ => q' = q
  | .loadSequencePop pos _ => q' = q ∧ pos = q.dequeuePos
  | .claimPop pos _ => q' = q ∧ pos = q.dequeuePos ∧ Side.pop.Ready c q pos
  | .moveOut pos => pos = q.dequeuePos ∧ Side.pop.Ready c q pos ∧ q' = { q with dequeuePos := Counter.plus q.dequeuePos 1 }
  | .destroy pos out => pos = q.dequeuePos ∧ Side.pop.Ready c q pos ∧
      out = (q.cell c q.dequeuePos).storage.getD default ∧
      q' = place c { q with dequeuePos := Counter.plus q.dequeuePos 1 } q.dequeuePos (some (Elem.moved out))
  | .release pos out => pos = q.dequeuePos ∧ Side.pop.Ready c q pos ∧
      out = (q.cell c q.dequeuePos).storage.getD default ∧
      q' = place c { q with dequeuePos := Counter.plus q.dequeuePos 1 } q.dequeuePos none
  | .done _ (.popped (some out)) => Side.pop.Ready c q q.dequeuePos ∧
      out = (q.cell c q.dequeuePos).storage.getD default ∧ q' = q.afterPop c
  | .done _ (.popped none) => ¬ Side.pop.Ready c q q.dequeuePos ∧ q' = q
  | _ => False

section
variable [Elem T] {backoff : Nat → Nat} {c : Nat} {q q₁ q₂ : AtomicQueue (BitVec w) T} {f f' : Frame (BitVec w) T}
  {m : Move} {arg : T}

omit [Elem T] in
theorem place_place (q : AtomicQueue (BitVec w) T) (pos : BitVec w) (x y : Option T) :
    (q.place c pos x).place c pos y = q.place c pos y := by
  simp only [place, cell, Function.update_self, Function.update_idem]

theorem Pushing.act (hopen : q.closed = false) (hmark : ¬ 0 < Counter.dif (q.cell c q.enqueuePos).sequence q.enqueuePos)
    (hm : m ≠ .throws) (h : Pushing c q arg q₁ f) (ha : q₁.Acts backoff c m f q₂ f') : Pushing c q arg q₂ f' := by
  cases ha with
  | refused hc =>
    obtain ⟨rfl, rfl⟩ := h
    rw [hopen] at hc
    cases hc
  | admitted => exact h
  | loadEnqueue => exact ⟨h.1, h.2, congrArg _ h.2⟩
  | ready hd =>
    obtain ⟨ha, rfl, hpos⟩ := h
    exact ⟨ha, rfl, hpos, hd⟩
  | full hd =>
    obtain ⟨-, rfl, rfl⟩ := h
    exact ⟨fun hr => by have : _ = (0 : Int) := hr; simp only [Side.mark] at this; omega, rfl⟩
  | passed hd =>
    obtain ⟨-, rfl, rfl⟩ := h
    exact absurd hd hmark
  | claim he =>
    obtain ⟨ha, rfl, rfl, hr⟩ := h
    exact ⟨ha, rfl, hr, rfl⟩
  | lost =>
    obtain ⟨ha, rfl, -⟩ := h
    exact ⟨ha, rfl, rfl⟩
  | construct =>
    obtain ⟨rfl, rfl, hr, rfl⟩ := h
    exact ⟨rfl, hr, rfl⟩
  | constructThrows => exact absurd rfl hm
  | publish =>
    obtain ⟨rfl, hr, rfl⟩ := h
    refine ⟨hr, ?_⟩
    simp only [store, place, cell, afterPush, Function.update_self, Function.update_idem]
  | _ => cases h

theorem Popping.act (hmark : ¬ 0 < Counter.dif (q.cell c q.dequeuePos).sequence (Counter.plus q.dequeuePos 1))
    (hm : m ≠ .throws) (h : Popping c q q₁ f) (ha : q₁.Acts backoff c m f q₂ f') : Popping c q q₂ f' := by
  cases ha with
  | loadDequeue => exact ⟨h, congrArg _ h⟩
  | readyPop hd =>
    obtain ⟨rfl, hpos⟩ := h
    exact ⟨rfl, hpos, hd⟩
  | empty hd =>
    obtain ⟨rfl, rfl⟩ := h
    exact ⟨fun hr => by have : _ = (0 : Int) := hr; simp only [Side.mark] at this; omega, rfl⟩
  | passedPop hd =>
    obtain ⟨rfl, rfl⟩ := h
    exact absurd hd hmark
  | claimPop he =>
    obtain ⟨rfl, rfl, hr⟩ := h
    exact ⟨rfl, hr, rfl⟩
  | lostPop =>
    obtain ⟨rfl, -⟩ := h
    exact ⟨rfl, rfl⟩
  | moveOut hv =>
    obtain ⟨rfl, hr, rfl⟩ := h
    exact ⟨rfl, hr, hv.symm, rfl⟩
  | moveOutThrows => exact absurd rfl hm
  | destroy =>
    obtain ⟨rfl, hr, hv, rfl⟩ := h
    exact ⟨rfl, hr, hv, place_place ..⟩
  | release =>
    obtain ⟨rfl, hr, hv, rfl⟩ := h
    refine ⟨hr, hv, ?_⟩
    simp only [store, place, cell, afterPop, Function.update_self, Function.update_idem]
  | _ => cases h

end

/-! ## The marks between two calls -/

section
variable {c : Nat} {q : AtomicQueue (BitVec w) T} {xs : List T} (hc : ∃ j, 0 < j ∧ j < w ∧ c = 2 ^ j)

include hc

theorem two_le : 2 ≤ c := by
  obtain ⟨j, h0, -, rfl⟩ := hc
  exact Nat.pow_le_pow_right (n := 2) (by omega) h0

theorem le_half : 0 < w ∧ c ≤ 2 ^ (w - 1) := by
  obtain ⟨j, -, hj, rfl⟩ := hc
  exact ⟨by omega, Nat.pow_le_pow_right (by omega) (by omega)⟩

theorem pow_lt : ∃ j, j < w ∧ c = 2 ^ j := by
  obtain ⟨j, -, hj, he⟩ := hc
  exact ⟨j, hj, he⟩

theorem Holds.start : Holds c (AtomicQueue.new (BitVec w) T) [] := by
  refine ⟨Nat.zero_le _, (Counter.plus_zero _).symm, fun i hi => absurd hi (Nat.not_lt_zero i), fun i _ hi => ?_⟩
  have hslot : Counter.slot c (Counter.plus (0#w) i) = i := by
    rw [Counter.slot_plus (pow_lt hc), BitVec.toNat_ofNat, Nat.zero_mod, Nat.zero_add, Nat.mod_eq_of_lt hi]
  have hpos : Counter.plus (0#w) i = BitVec.ofNat w i := BitVec.zero_add _
  show Cell.mk (BitVec.ofNat w (Counter.slot c (Counter.plus (0#w) i))) none = ⟨Counter.plus (0#w) i, none⟩
  rw [hslot, hpos]

omit hc in
theorem Holds.push_ready (h : Holds c q xs) (hlt : xs.length < c) : Side.push.Ready c q q.enqueuePos := by
  apply Counter.dif_eq_zero.mpr
  rw [h.enqueue, h.free _ (Nat.le_refl _) hlt]
  rfl

theorem Holds.push_full (h : Holds c q xs) (hfull : xs.length = c) :
    Counter.dif (q.cell c q.enqueuePos).sequence q.enqueuePos < 0 := by
  have h2 := two_le hc
  obtain ⟨hw, hhalf⟩ := le_half hc
  have hlap := Counter.slot_lap (pow_lt hc) q.dequeuePos 0
  have hcell : q.cell c q.enqueuePos = q.cell c (Counter.plus q.dequeuePos 0) := by
    rw [h.enqueue, hfull]
    exact congrArg q.cells (by rw [← hlap, Nat.zero_add])
  rw [hcell, h.taken 0 (by omega), h.enqueue, hfull]
  exact Counter.dif_neg _ (by omega) (by omega) hw

theorem Holds.push_mark (h : Holds c q xs) : ¬ 0 < Counter.dif (q.cell c q.enqueuePos).sequence q.enqueuePos := by
  rcases Nat.lt_or_eq_of_le h.length_le with hlt | heq
  · have hr : Counter.dif (q.cell c q.enqueuePos).sequence q.enqueuePos = 0 := h.push_ready hlt
    omega
  · have := h.push_full hc heq
    omega

omit hc in
theorem Holds.pop_ready (h : Holds c q xs) (hpos : 0 < xs.length) : Side.pop.Ready c q q.dequeuePos := by
  have hcell := h.taken 0 hpos
  rw [Counter.plus_zero] at hcell
  apply Counter.dif_eq_zero.mpr
  rw [hcell]
  rfl

theorem Holds.pop_empty (h : Holds c q xs) (hz : xs.length = 0) :
    Counter.dif (q.cell c q.dequeuePos).sequence (Counter.plus q.dequeuePos 1) < 0 := by
  have h2 := two_le hc
  obtain ⟨hw, hhalf⟩ := le_half hc
  have hcell := h.free 0 (by omega) (by omega)
  have hneg := Counter.dif_neg q.dequeuePos (i := 0) (j := 1) (by omega) (by omega) hw
  rw [Counter.plus_zero] at hcell hneg
  rw [hcell]
  exact hneg

theorem Holds.pop_mark (h : Holds c q xs) :
    ¬ 0 < Counter.dif (q.cell c q.dequeuePos).sequence (Counter.plus q.dequeuePos 1) := by
  rcases Nat.eq_zero_or_pos xs.length with hz | hpos
  · have := h.pop_empty hc hz
    omega
  · have hr : Counter.dif (q.cell c q.dequeuePos).sequence (Counter.plus q.dequeuePos 1) = 0 := h.pop_ready hpos
    omega

theorem cell_ne (q : AtomicQueue (BitVec w) T) (a : BitVec w) {i j : Nat} (hne : i ≠ j) (hi : i < c) (hj : j < c)
    (x : Cell (BitVec w) T) : Function.update q.cells (Counter.slot c (Counter.plus a i)) x (Counter.slot c (Counter.plus a j)) =
      q.cell c (Counter.plus a j) := by
  refine Function.update_of_ne ?_ ..
  rcases Nat.lt_or_gt_of_ne hne with h | h
  · exact Counter.slot_plus_ne (pow_lt hc) a h (by omega)
  · exact (Counter.slot_plus_ne (pow_lt hc) a h (by omega)).symm

theorem Holds.push (h : Holds c q xs) (hlt : xs.length < c) (arg : T) : Holds c (q.afterPush c arg) (xs ++ [arg]) := by
  have hlen : (xs ++ [arg]).length = xs.length + 1 := List.length_append
  have hcell : ∀ j, j < c → j ≠ xs.length →
      (q.afterPush c arg).cell c (Counter.plus q.dequeuePos j) = q.cell c (Counter.plus q.dequeuePos j) := by
    intro j hj hne
    show Function.update q.cells (Counter.slot c q.enqueuePos) _ _ = _
    rw [h.enqueue]
    exact cell_ne hc q _ hne.symm hlt hj _
  refine ⟨by omega, ?_, fun i hi => ?_, fun i hi hic => ?_⟩
  · show Counter.plus q.enqueuePos 1 = Counter.plus q.dequeuePos _
    rw [h.enqueue, Counter.plus_plus, hlen]
  · show (q.afterPush c arg).cell c (Counter.plus q.dequeuePos i) = _
    by_cases hix : i = xs.length
    · subst hix
      show Function.update q.cells (Counter.slot c q.enqueuePos) _ (Counter.slot c (Counter.plus q.dequeuePos _)) = _
      rw [h.enqueue, Function.update_self, List.getElem?_concat_length, Counter.plus_plus]
      rfl
    · rw [hcell i (by omega) hix, h.taken i (by omega), List.getElem?_append_left (by omega)]
      rfl
  · show (q.afterPush c arg).cell c (Counter.plus q.dequeuePos i) = _
    rw [hcell i hic (by omega), h.free i (by omega) hic]
    rfl

theorem Holds.pop {value : T} {rest : List T} (h : Holds c q (value :: rest)) : Holds c (q.afterPop c) rest := by
  have hlen : (value :: rest).length = rest.length + 1 := rfl
  have hle := h.length_le
  have hnext : ∀ i, Counter.plus (Counter.plus q.dequeuePos 1) i = Counter.plus q.dequeuePos (i + 1) := by
    intro i
    rw [Counter.plus_plus, Nat.add_comm]
  have hcell : ∀ j, 0 < j → j < c →
      (q.afterPop c).cell c (Counter.plus q.dequeuePos j) = q.cell c (Counter.plus q.dequeuePos j) := by
    intro j hpos hj
    have := cell_ne hc q q.dequeuePos (i := 0) (by omega) (by omega) hj ⟨Counter.plus q.dequeuePos c, none⟩
    rwa [Counter.plus_zero] at this
  refine ⟨by omega, ?_, fun i hi => ?_, fun i hi hic => ?_⟩
  · show q.enqueuePos = Counter.plus (Counter.plus q.dequeuePos 1) _
    rw [h.enqueue, hnext, hlen]
  · show (q.afterPop c).cell c (Counter.plus (Counter.plus q.dequeuePos 1) i) =
      ⟨Counter.plus (Counter.plus q.dequeuePos 1) (i + 1), _⟩
    rw [hnext, hnext, hcell (i + 1) (by omega) (by omega), h.taken (i + 1) (by omega)]
    rfl
  · show (q.afterPop c).cell c (Counter.plus (Counter.plus q.dequeuePos 1) i) =
      ⟨Counter.plus (Counter.plus q.dequeuePos 1) i, none⟩
    rw [hnext]
    by_cases hil : i + 1 = c
    · have hlap := Counter.slot_lap (pow_lt hc) q.dequeuePos 0
      rw [Nat.zero_add, Counter.plus_zero] at hlap
      show Function.update q.cells (Counter.slot c q.dequeuePos) _ (Counter.slot c (Counter.plus q.dequeuePos (i + 1))) = _
      rw [hil, hlap, Function.update_self]
    · rw [hcell (i + 1) (by omega) (by omega), h.free (i + 1) (by omega) (by omega)]

end

end AtomicQueue

/-! ## The calls -/

def TryOp.atomic : TryOp T → AtomicOp T
  | .tryPush value => .emplace value
  | .tryPop => .tryPop

def Reply.res : Reply T → Option (Res T)
  | .pushed ok _ => some (.pushed ok)
  | .popped out => some (.popped out)
  | .closed _ => some .closed
  | .isClosed _ => none
  | .threw => some .threw

namespace Atomic

section
variable {Tid : Type} [DecidableEq Tid] [Elem T]

def service (M : Machine (State Tid (BitVec w) T) (Label Tid T)) : Service (State Tid (BitVec w) T) (Tid × TryOp T) (Res T) where
  start := M.start
  answers s call r s' := ∃ reply, Calls M s call.1 call.2.atomic reply s' ∧ reply.res = some r

def Tracks (c : Nat) (q : AtomicQueue (BitVec w) T) (op : TryOp T) (q' : AtomicQueue (BitVec w) T) (f : Frame (BitVec w) T) :
    Prop :=
  match op with
  | .tryPush value => AtomicQueue.Pushing c q value q' f
  | .tryPop => AtomicQueue.Popping c q q' f

/-- No thread is in a call, and the queue is open and holds `xs`. -/
structure AtRest (c : Nat) (s : State Tid (BitVec w) T) (xs : List T) : Prop where
  idle : ∀ t, s.pc t = .idle
  holds : s.queue.Holds c xs
  closed : s.queue.closed = false

variable {backoff : Nat → Nat} {c : Nat} {s s' : State Tid (BitVec w) T} {t : Tid} {xs : List T}
  (hc : ∃ j, 0 < j ∧ j < w ∧ c = 2 ^ j)

include hc

omit [DecidableEq Tid] in
theorem acts_track {q q' : AtomicQueue (BitVec w) T} {f : Frame (BitVec w) T} (h : q.Holds c xs) (op : TryOp T)
    (hopen : op = .tryPop ∨ q.closed = false) {ms : List Move} (hm : ∀ m ∈ ms, m ≠ .throws)
    (ha : q.acts backoff c (AtomicQueue.enter op.atomic) ms = some (q', f)) : Tracks c q op q' f := by
  cases op with
  | tryPush value =>
    have hopen : q.closed = false := by
      rcases hopen with he | ho
      · cases he
      · exact ho
    exact AtomicQueue.acts_invariant (f := .checkClosed value)
      (fun _ _ _ _ _ hne hp ha => hp.act hopen (h.push_mark hc) hne ha) hm ⟨rfl, rfl⟩ ha
  | tryPop =>
    exact AtomicQueue.acts_invariant (f := .loadDequeue 0)
      (fun _ _ _ _ _ hne hp ha => hp.act (h.pop_mark hc) hne ha) hm rfl ha

omit [DecidableEq Tid] in
theorem tracks_done {q q' : AtomicQueue (BitVec w) T} (h : q.Holds c xs) {op : TryOp T} {k : Option (BitVec w)} {reply : Reply T}
    {r : Res T} (ht : Tracks c q op q' (.done k reply)) (hr : reply.res = some r) :
    r = (op.run c xs).2 ∧ q'.Holds c (op.run c xs).1 ∧ q'.closed = q.closed := by
  cases op with
  | tryPush value =>
    cases reply with
    | pushed ok arg =>
      cases hr
      cases ok with
      | true =>
        obtain ⟨hready, rfl⟩ := ht
        have hlt : xs.length < c := by
          apply Nat.lt_of_le_of_ne h.length_le
          intro he
          have hz : Counter.dif (q.cell c q.enqueuePos).sequence q.enqueuePos = 0 := hready
          have := h.push_full hc he
          omega
        simp only [TryOp.run, if_pos hlt]
        exact ⟨trivial, h.push hc hlt value, rfl⟩
      | false =>
        obtain ⟨hready, rfl⟩ := ht
        have hge : ¬ xs.length < c := fun hlt => hready (h.push_ready hlt)
        simp only [TryOp.run, if_neg hge]
        exact ⟨trivial, h, trivial⟩
    | _ => exact ht.elim
  | tryPop =>
    cases reply with
    | popped out =>
      cases hr
      cases out with
      | some v =>
        obtain ⟨hready, hv, rfl⟩ := ht
        cases xs with
        | nil =>
          have hz : Counter.dif (q.cell c q.dequeuePos).sequence (Counter.plus q.dequeuePos 1) = 0 := hready
          have := h.pop_empty hc rfl
          omega
        | cons x rest =>
          have hcell := h.taken 0 (Nat.succ_pos _)
          rw [Counter.plus_zero] at hcell
          rw [hcell] at hv
          obtain rfl : v = x := hv
          exact ⟨rfl, h.pop hc, rfl⟩
      | none =>
        obtain ⟨hready, rfl⟩ := ht
        cases xs with
        | nil => exact ⟨rfl, h, rfl⟩
        | cons x rest => exact absurd (h.pop_ready (Nat.succ_pos _)) hready
    | _ => exact ht.elim

omit [DecidableEq Tid] in
theorem acts_finish (backoff : Nat → Nat) {q : AtomicQueue (BitVec w) T} (h : q.Holds c xs) (op : TryOp T)
    (hopen : op = .tryPop ∨ q.closed = false) :
    ∃ ms q' k reply r, (∀ m ∈ ms, m = .go) ∧
      q.acts backoff c (AtomicQueue.enter op.atomic) ms = some (q', .done k reply) ∧ reply.res = some r := by
  cases op with
  | tryPush value =>
    have hopen : q.closed = false := by
      rcases hopen with he | ho
      · cases he
      · exact ho
    rcases Nat.lt_or_eq_of_le h.length_le with hlt | heq
    · obtain ⟨q', k, r, ha, hs, -⟩ := AtomicQueue.acts_ready backoff .push value (h.push_ready hlt) hopen
      cases r with
      | pushed ok arg => exact ⟨_, q', k, _, _, fun m hm => List.eq_of_mem_replicate hm, ha, rfl⟩
      | _ => exact hs.elim
    · have hd := h.push_full hc heq
      have hne : Counter.dif (q.cell c q.enqueuePos).sequence q.enqueuePos ≠ 0 := by omega
      refine ⟨List.replicate 3 .go, q, none, .pushed false value, .pushed false, fun m hm => List.eq_of_mem_replicate hm, ?_, rfl⟩
      simp only [List.replicate, AtomicQueue.acts, AtomicQueue.enter, TryOp.atomic, AtomicQueue.act, hopen, hd, hne,
        Bool.false_eq_true, if_true, if_false, Option.bind_some]
  | tryPop =>
    rcases Nat.eq_zero_or_pos xs.length with hz | hpos
    · have hd := h.pop_empty hc hz
      have hne : Counter.dif (q.cell c q.dequeuePos).sequence (Counter.plus q.dequeuePos 1) ≠ 0 := by omega
      refine ⟨List.replicate 2 .go, q, none, .popped none, .popped none, fun m hm => List.eq_of_mem_replicate hm, ?_, rfl⟩
      simp only [List.replicate, AtomicQueue.acts, AtomicQueue.enter, TryOp.atomic, AtomicQueue.act, hd, hne, if_true,
        if_false, Option.bind_some]
    · obtain ⟨q', k, r, ha, hs, -⟩ := AtomicQueue.acts_ready backoff .pop default (h.pop_ready hpos) trivial
      cases r with
      | popped out => exact ⟨_, q', k, _, _, fun m hm => List.eq_of_mem_replicate hm, ha, rfl⟩
      | _ => exact hs.elim

theorem service_implements (backoff : Nat → Nat) :
    (service (machine Tid (BitVec w) T backoff c false)).Implements (fun xs call => call.2.run c xs) [] (AtRest c) := by
  constructor
  · exact ⟨fun _ => rfl, AtomicQueue.Holds.start hc, rfl⟩
  · intro s xs call h
    obtain ⟨ms, q', k, reply, r, hm, ha, hr⟩ := acts_finish hc backoff h.holds call.2 (.inr h.closed)
    refine ⟨r, _, reply, calls_of_acts (fun m hmem he => ?_) (h.idle call.1) ha, hr⟩
    rw [hm m hmem] at he
    cases he
  · intro s xs call r s' h hans
    obtain ⟨reply, hcalls, hr⟩ := hans
    obtain ⟨-, ms, k, ha, hpc, hm⟩ := hcalls.acts
    have ht := acts_track hc h.holds call.2 (.inr h.closed) (fun m hmem he => hm m hmem ⟨he, rfl⟩) ha
    obtain ⟨h1, h2, h3⟩ := tracks_done hc h.holds ht hr
    exact ⟨h1, fun t => by rw [hpc]; exact h.idle t, h2, h3.trans h.closed⟩

theorem not_passed (h : AtRest c s xs) (op : TryOp T) {ms : List Move}
    (he : (machine Tid (BitVec w) T backoff c false).execFrom s (.call t op.atomic :: ms.map (.move t)) = some s') :
    ¬ s'.queue.Passed c (s'.pc t) := by
  obtain ⟨-, ha, -, hm⟩ := acts_of_call he
  have ht := acts_track hc h.holds op (.inr h.closed) (fun m hmem he => hm m hmem ⟨he, rfl⟩) ha
  intro hp
  cases hf : s'.pc t with
  | loadSequence arg pos spins =>
    rw [hf] at ht hp
    cases op with
    | tryPush value =>
      obtain ⟨-, hq, rfl⟩ := ht
      rw [hq] at hp
      exact h.holds.push_mark hc hp
    | tryPop => exact ht.elim
  | loadSequencePop pos spins =>
    rw [hf] at ht hp
    cases op with
    | tryPush value => exact ht.elim
    | tryPop =>
      obtain ⟨hq, rfl⟩ := ht
      rw [hq] at hp
      exact h.holds.pop_mark hc hp
  | _ => rw [hf] at hp; exact hp.elim

end

end Atomic

end Yutil
