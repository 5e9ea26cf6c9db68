import Yutil.AtomicOrders
import Yutil.AtomicWords

/-!
# Cells in a memory of views

A cell is settled while no call has claimed it: its sequence number then says
that it is free for a push, or published for a pop, and the last store of that
number carries all accesses to the slot. The numbers of a cell only grow, so an
older store never shows the number of a settled cell.
-/

namespace Yutil

open Interleave

namespace Atomic

/-! ## Who may touch a cell -/

section
variable {Tid T : Type} {c i k : Nat} {q : NatQueue T} {y : State Tid Nat T} {t u : Tid}

/-- A cell that no call has claimed: free for its push, or published for its pop. -/
def Settled (c : Nat) (q : NatQueue T) (k : Nat) : Prop :=
  q.enqueuePos ≤ k ∧ k < q.dequeuePos + c ∧ (q.cell c k).sequence = k ∨
    q.dequeuePos ≤ k ∧ k < q.enqueuePos ∧ (q.cell c k).sequence = k + 1

def spot (c : Nat) : Frame Nat T → Option Nat
  | .construct _ pos | .publish _ pos => some pos
  | .moveOut pos | .destroy pos _ | .release pos _ => some (pos + c)
  | _ => none

def grip (c : Nat) (q : NatQueue T) : Frame Nat T → Option Nat
  | .claim _ pos _ => if pos = q.enqueuePos then some pos else none
  | .claimPop pos _ => if pos = q.dequeuePos then some pos else none
  | f => spot c f

theorem Settled.window (hl : Lap c q) (h : Settled c q k) : q.dequeuePos ≤ k ∧ k < q.dequeuePos + c := by
  have h1 := hl.le
  have h2 := hl.bound
  rcases h with h | h
  · exact ⟨h1.trans h.1, h.2.1⟩
  · exact ⟨h.1, by omega⟩

theorem Inv.spot (h : Inv c y) (hc : 2 ≤ c) (ht : spot c (y.pc t) = some i) :
    y.queue.dequeuePos ≤ i ∧ i < y.queue.dequeuePos + c ∧ ¬ Settled c y.queue i := by
  have hle := h.lap.le
  have hb := h.lap.bound
  have hf := h.frames t
  unfold Settled
  have popped : ∀ pos, pos < y.queue.dequeuePos → y.queue.enqueuePos ≤ pos + c →
      (y.queue.cell c pos).sequence = pos + 1 → i = pos + c →
      y.queue.dequeuePos ≤ i ∧ i < y.queue.dequeuePos + c ∧ ¬ (y.queue.enqueuePos ≤ i ∧ i < y.queue.dequeuePos + c ∧
        (y.queue.cell c i).sequence = i ∨ y.queue.dequeuePos ≤ i ∧ i < y.queue.enqueuePos ∧
          (y.queue.cell c i).sequence = i + 1) := by
    rintro pos h1 h2 h3 rfl
    rw [cell_lap]
    omega
  cases hpc : y.pc t with
  | construct arg pos => rw [hpc] at ht hf; cases ht; have := hf.1; have := hf.2.1; have := hf.2.2.1; omega
  | publish arg pos => rw [hpc] at ht hf; cases ht; have := hf.1; have := hf.2.1; have := hf.2.2.1; omega
  | moveOut pos => rw [hpc] at ht hf; cases ht; exact popped pos hf.1 hf.2.1 hf.2.2.1 rfl
  | destroy pos out => rw [hpc] at ht hf; cases ht; exact popped pos hf.1 hf.2.1 hf.2.2.1 rfl
  | release pos out => rw [hpc] at ht hf; cases ht; exact popped pos hf.1 hf.2.1 hf.2.2.1 rfl
  | _ => rw [hpc] at ht; cases ht

theorem spot_tickets {f : Frame Nat T} (h : Atomic.spot c f = some i) :
    pushTicket f = some i ∨ ∃ pos, popTicket f = some pos ∧ i = pos + c := by
  cases f with
  | construct arg pos => cases h; exact .inl rfl
  | publish arg pos => cases h; exact .inl rfl
  | moveOut pos => cases h; exact .inr ⟨pos, rfl, rfl⟩
  | destroy pos out => cases h; exact .inr ⟨pos, rfl, rfl⟩
  | release pos out => cases h; exact .inr ⟨pos, rfl, rfl⟩
  | _ => cases h

theorem Inv.push_lt (h : Inv c y) (ht : pushTicket (y.pc t) = some k) : k < y.queue.enqueuePos := by
  have hf := h.frames t
  cases hpc : y.pc t with
  | construct arg pos => rw [hpc] at ht hf; cases ht; exact hf.2.1
  | publish arg pos => rw [hpc] at ht hf; cases ht; exact hf.2.1
  | _ => rw [hpc] at ht; cases ht

theorem Inv.spot_inj (h : Inv c y) (ht : Atomic.spot c (y.pc t) = some i) (hu : Atomic.spot c (y.pc u) = some i) : u = t := by
  rcases spot_tickets ht with h1 | ⟨p, h1, rfl⟩
  · rcases spot_tickets hu with h2 | ⟨p, h2, rfl⟩
    · exact h.pushers u t i h2 h1
    · have := h.push_lt h1
      have := (Life.pop_bounds h h2).2.1
      omega
  · rcases spot_tickets hu with h2 | ⟨p', h2, he⟩
    · have := h.push_lt h2
      have := (Life.pop_bounds h h1).2.1
      omega
    · obtain rfl : p = p' := by omega
      exact h.poppers u t p h2 h1

theorem Inv.grip (h : Inv c y) (hc : 2 ≤ c) (hu : grip c y.queue (y.pc u) = some k) :
    Atomic.spot c (y.pc u) = some k ∨ Settled c y.queue k := by
  have hf := h.frames u
  cases hpc : y.pc u with
  | claim arg pos spins =>
    rw [hpc] at hu hf
    simp only [Atomic.grip] at hu
    split at hu
    · rename_i he
      cases hu
      subst he
      rcases hf with hf | hf
      · exact absurd hf (Nat.lt_irrefl _)
      · exact .inr (.inl ⟨Nat.le_refl _, (h.lap.room hc hf.2).1, hf.2⟩)
    · cases hu
  | claimPop pos spins =>
    rw [hpc] at hu hf
    simp only [Atomic.grip] at hu
    split at hu
    · rename_i he
      cases hu
      subst he
      rcases hf with hf | hf
      · exact absurd hf (Nat.lt_irrefl _)
      · exact .inr (.inr ⟨Nat.le_refl _, (h.lap.item hc hf.2).1, hf.2⟩)
    · cases hu
  | _ => rw [hpc] at hu; exact .inl hu

/-- The cell that a call owns is neither settled nor in the hand of another call. -/
theorem Inv.settled_ne (h : Inv c y) (hc : 2 ≤ c) (ht : Atomic.spot c (y.pc t) = some i) (hk : Settled c y.queue k) :
    k % c ≠ i % c := by
  obtain ⟨h1, h2, h3⟩ := h.spot hc ht
  obtain ⟨h4, h5⟩ := hk.window h.lap
  intro he
  rw [Counter.window_inj h4 h5 h1 h2 he] at hk
  exact h3 hk

theorem Inv.grip_ne (h : Inv c y) (hc : 2 ≤ c) (ht : Atomic.spot c (y.pc t) = some i) (hne : u ≠ t)
    (hu : Atomic.grip c y.queue (y.pc u) = some k) : k % c ≠ i % c := by
  rcases h.grip hc hu with hs | hs
  · obtain ⟨h1, h2, -⟩ := h.spot hc ht
    obtain ⟨h3, h4, -⟩ := h.spot hc hs
    intro he
    obtain rfl := Counter.window_inj h3 h4 h1 h2 he
    exact hne (h.spot_inj ht hs)
  · exact h.settled_ne hc ht hs

end

/-! ## What the threads have seen -/

section
variable {Tid T : Type} {w c i k : Nat} {m : Memory (Word (BitVec w)) Nat (Option T)} {v v' : View Place Nat}

structure Held (m : Memory (Word (BitVec w)) Nat (Option T)) (v : View Place Nat) (i : Nat) : Prop where
  knows : m.Knows v i
  seen : m.last (.sequence i) ≤ v (.inl (.sequence i))

structure Marked (m : Memory (Word (BitVec w)) Nat (Option T)) (i seq : Nat) (mark : Nat → Nat) : Prop where
  last : mark (m.last (.sequence i)) = seq
  mono : ∀ n k, n < k → k ≤ m.last (.sequence i) → mark n < mark k
  words : ∀ n, n ≤ m.last (.sequence i) → (m.stores (.sequence i) n).value = word w (mark n)

theorem Held.mono (h : Held m v i) (hle : v ≤ v') : Held m v' i := ⟨h.knows.mono hle, h.seen.trans (hle _)⟩

theorem Held.touch (h : Held m v k) (hne : k ≠ i) (x : Option T) : Held (m.touch i x) v k :=
  ⟨h.knows.touch hne x, h.seen⟩

theorem Held.touched (h : Held m v i) (x : Option T) : Held (m.touch i x) (m.touched v i) i := ⟨.touched x, h.seen⟩

theorem Held.append (h : Held m v i) (a : Place) (hne : .sequence i ≠ a) (x : Word (BitVec w) a) (u : View Place Nat) :
    Held (m.append a x u) v i := by
  refine ⟨h.knows, ?_⟩
  rw [Memory.append_last_ne _ _ _ _ hne]
  exact h.seen

theorem Marked.append {seq : Nat} {mark : Nat → Nat} (h : Marked m i seq mark) {a : Place} (hne : .sequence i ≠ a)
    (x : Word (BitVec w) a) (u : View Place Nat) : Marked (m.append a x u) i seq mark := by
  have hlast := Memory.append_last_ne m a x u hne
  have hstores := Memory.append_stores_ne m a x u hne
  refine ⟨?_, ?_, ?_⟩
  · rw [hlast]
    exact h.last
  · rw [hlast]
    exact h.mono
  · rw [hlast, hstores]
    exact h.words

theorem Marked.stored {seq seq' : Nat} {mark : Nat → Nat} (h : Marked m i seq mark) (hlt : seq < seq') {x : BitVec w}
    (hx : x = word w seq') (u : View Place Nat) :
    Marked (m.append (.sequence i) x u) i seq' (Function.update mark (m.last (.sequence i) + 1) seq') := by
  have hlast : (m.append (.sequence i) x u).last (.sequence i) = m.last (.sequence i) + 1 := Memory.append_last m _ x u
  have hold : ∀ n, n ≤ m.last (.sequence i) → Function.update mark (m.last (.sequence i) + 1) seq' n = mark n :=
    fun n hn => Function.update_of_ne (by omega) ..
  have hseq := h.last
  refine ⟨?_, fun n k hnk hk => ?_, fun n hn => ?_⟩
  · rw [hlast, Function.update_self]
  · rw [hlast] at hk
    by_cases hle : k ≤ m.last (.sequence i)
    · rw [hold n (by omega), hold k hle]
      exact h.mono n k hnk hle
    · obtain rfl : k = m.last (.sequence i) + 1 := by omega
      rw [hold n (by omega), Function.update_self]
      rcases Nat.lt_or_eq_of_le (Nat.le_of_lt_succ hnk) with hlt' | rfl
      · have := h.mono n _ hlt' (Nat.le_refl _)
        omega
      · omega
  · rw [hlast] at hn
    by_cases hle : n ≤ m.last (.sequence i)
    · rw [Memory.append_stores_old _ _ _ _ hle, hold n hle]
      exact h.words n hle
    · obtain rfl : n = m.last (.sequence i) + 1 := by omega
      rw [Memory.append_stores, Function.update_self]
      exact hx

end

/-! ## The memory shows the queue -/

section
variable {T : Type}

/-- A memory of words, against the queue over counters that do not wrap. -/
structure Shows (w c : Nat) (m : Memory (Word (BitVec w)) Nat (Option T)) (q : NatQueue T) : Prop where
  plain : ∀ i, m.plain i = (q.cells i).storage
  enqueue : m.last .enqueue = q.enqueuePos
  enqueued : ∀ j, j ≤ m.last .enqueue → (m.stores .enqueue j).value = word w j
  dequeue : m.last .dequeue = q.dequeuePos
  dequeued : ∀ j, j ≤ m.last .dequeue → (m.stores .dequeue j).value = word w j
  closed : (m.stores .closed (m.last .closed)).value = q.closed
  marks : ∀ i, ∃ mark, Marked m i (q.cells i).sequence mark
  settled : ∀ k, Settled c q k → m.Knows (m.stores (.sequence (k % c)) (m.last (.sequence (k % c)))).view (k % c)

variable {w c i k : Nat} {m : Memory (Word (BitVec w)) Nat (Option T)} {q q' : NatQueue T} {u : View Place Nat}

theorem Settled.congr (he : q'.enqueuePos = q.enqueuePos) (hd : q'.dequeuePos = q.dequeuePos)
    (hs : (q'.cell c k).sequence = (q.cell c k).sequence) (h : Settled c q' k) : Settled c q k := by
  unfold Settled at h ⊢
  rw [he, hd, hs] at h
  exact h

theorem append_beside {a b : Place} (h : b ≠ a) (x : Word (BitVec w) a) (u : View Place Nat) :
    (m.append a x u).last b = m.last b ∧ (m.append a x u).stores b = m.stores b :=
  ⟨Memory.append_last_ne m a x u h, Memory.append_stores_ne m a x u h⟩

theorem Shows.touch (h : Shows w c m q) {x : Option T} (he : q'.enqueuePos = q.enqueuePos) (hd : q'.dequeuePos = q.dequeuePos)
    (hcl : q'.closed = q.closed) (hcells : q'.cells = Function.update q.cells i ⟨(q.cells i).sequence, x⟩)
    (hi : ∀ k, Settled c q k → k % c ≠ i) : Shows w c (m.touch i x) q' := by
  have hseq : ∀ j, (q'.cells j).sequence = (q.cells j).sequence := by
    intro j
    rw [hcells]
    by_cases hj : j = i
    · rw [hj, Function.update_self]
    · rw [Function.update_of_ne hj]
  refine ⟨fun j => ?_, h.enqueue.trans he.symm, h.enqueued, h.dequeue.trans hd.symm, h.dequeued, h.closed.trans hcl.symm,
    fun j => ?_, fun k hk => ?_⟩
  · show Function.update m.plain i x j = _
    rw [hcells]
    by_cases hj : j = i
    · rw [hj, Function.update_self, Function.update_self]
    · rw [Function.update_of_ne hj, Function.update_of_ne hj]
      exact h.plain j
  · rw [hseq]
    obtain ⟨mark, hmark⟩ := h.marks j
    exact ⟨mark, hmark.last, hmark.mono, hmark.words⟩
  · have hk := hk.congr he hd (hseq _)
    exact (h.settled k hk).touch (hi k hk) x

theorem Shows.stored (h : Shows w c m q) {seq : Nat} {x : BitVec w} (he : q'.enqueuePos = q.enqueuePos)
    (hd : q'.dequeuePos = q.dequeuePos) (hcl : q'.closed = q.closed)
    (hcells : q'.cells = Function.update q.cells i ⟨seq, (q.cells i).storage⟩) (hlt : (q.cells i).sequence < seq)
    (hx : x = word w seq) (hknows : m.Knows u i) : Shows w c (m.append (.sequence i) x u) q' := by
  have hother : ∀ j, j ≠ i → q'.cells j = q.cells j := by
    intro j hj
    rw [hcells, Function.update_of_ne hj]
  have hplace : ∀ j, j ≠ i → Place.sequence j ≠ .sequence i := fun j hj he => hj (Place.sequence.inj he)
  obtain ⟨enqueueLast, enqueueStores⟩ := append_beside (m := m) (a := .sequence i) (b := .enqueue) nofun x u
  obtain ⟨dequeueLast, dequeueStores⟩ := append_beside (m := m) (a := .sequence i) (b := .dequeue) nofun x u
  obtain ⟨closedLast, closedStores⟩ := append_beside (m := m) (a := .sequence i) (b := .closed) nofun x u
  refine ⟨fun j => ?_, ?_, ?_, ?_, ?_, ?_, fun j => ?_, fun k hk => ?_⟩
  · refine (h.plain j).trans ?_
    rw [hcells]
    by_cases hj : j = i
    · rw [hj, Function.update_self]
    · rw [Function.update_of_ne hj]
  · rw [enqueueLast, he]
    exact h.enqueue
  · rw [enqueueLast, enqueueStores]
    exact h.enqueued
  · rw [dequeueLast, hd]
    exact h.dequeue
  · rw [dequeueLast, dequeueStores]
    exact h.dequeued
  · rw [closedLast, hcl, closedStores]
    exact h.closed
  · obtain ⟨mark, hmark⟩ := h.marks j
    by_cases hj : j = i
    · subst hj
      rw [hcells, Function.update_self]
      exact ⟨_, hmark.stored hlt hx _⟩
    · rw [hother j hj]
      exact ⟨mark, hmark.append (hplace j hj) x _⟩
  · by_cases hki : k % c = i
    · rw [hki, Memory.append_last, Memory.append_stores]
      exact hknows
    · have hk := hk.congr he hd (congrArg Cell.sequence (hother _ hki))
      rw [Memory.append_last_ne _ _ _ _ (hplace _ hki), Memory.append_stores_ne _ _ _ _ (hplace _ hki)]
      exact h.settled k hk

/-- What a store to another place than a sequence number leaves alone. -/
theorem Shows.beside (h : Shows w c m q) {a : Place} (ha : ∀ i, Place.sequence i ≠ a) (x : Word (BitVec w) a)
    (q' : NatQueue T) (u : View Place Nat) (hcells : q'.cells = q.cells) (hk : ∀ k, Settled c q' k → Settled c q k) :
    (∀ i, (m.append a x u).plain i = (q'.cells i).storage) ∧
    (∀ i, ∃ mark, Marked (m.append a x u) i (q'.cells i).sequence mark) ∧
    ∀ k, Settled c q' k → (m.append a x u).Knows
      ((m.append a x u).stores (.sequence (k % c)) ((m.append a x u).last (.sequence (k % c)))).view (k % c) := by
  rw [hcells]
  refine ⟨h.plain, fun i => ?_, fun k hs => ?_⟩
  · obtain ⟨mark, hmark⟩ := h.marks i
    exact ⟨mark, hmark.append (ha i) x u⟩
  · rw [Memory.append_last_ne _ _ _ _ (ha _), Memory.append_stores_ne _ _ _ _ (ha _)]
    exact h.settled k (hk k hs)

theorem words_append {a : Place} (g : Word (BitVec w) a → BitVec w) {x : Word (BitVec w) a}
    (h : ∀ j, j ≤ m.last a → g (m.stores a j).value = word w j) (hx : g x = word w (m.last a + 1)) (j : Nat)
    (hj : j ≤ (m.append a x u).last a) : g ((m.append a x u).stores a j).value = word w j := by
  by_cases hold : j ≤ m.last a
  · rw [Memory.append_stores_old _ _ _ _ hold]
    exact h j hold
  · rw [Memory.append_last] at hj
    obtain rfl : j = m.last a + 1 := by omega
    rw [Memory.append_stores]
    exact hx

theorem Shows.claimed (h : Shows w c m q) {x : BitVec w} (hx : x = word w (q.enqueuePos + 1))
    (hseq : (q.cell c q.enqueuePos).sequence = q.enqueuePos) :
    Shows w c (m.append .enqueue x u) { q with enqueuePos := q.enqueuePos + 1 } := by
  have hsettled : ∀ k, Settled c { q with enqueuePos := q.enqueuePos + 1 } k → Settled c q k := by
    intro k hk
    rcases hk with hk | hk
    · exact .inl ⟨Nat.le_of_succ_le hk.1, hk.2⟩
    · have h2 : k < q.enqueuePos + 1 := hk.2.1
      have h3 : (q.cell c k).sequence = k + 1 := hk.2.2
      refine .inr ⟨hk.1, Nat.lt_of_le_of_ne (Nat.le_of_lt_succ h2) fun he => ?_, h3⟩
      rw [he] at h3
      omega
  obtain ⟨hplain, hmarks, hknows⟩ := h.beside (a := .enqueue) nofun x { q with enqueuePos := q.enqueuePos + 1 } u rfl hsettled
  obtain ⟨dequeueLast, dequeueStores⟩ := append_beside (m := m) (a := .enqueue) (b := .dequeue) nofun x u
  obtain ⟨closedLast, closedStores⟩ := append_beside (m := m) (a := .enqueue) (b := .closed) nofun x u
  refine ⟨hplain, ?_, words_append (a := .enqueue) id h.enqueued (by rw [h.enqueue]; exact hx), ?_, ?_, ?_, hmarks, hknows⟩
  · rw [Memory.append_last, h.enqueue]
  · rw [dequeueLast]
    exact h.dequeue
  · rw [dequeueLast, dequeueStores]
    exact h.dequeued
  · rw [closedLast, closedStores]
    exact h.closed

theorem Shows.claimedPop (h : Shows w c m q) (hc : 2 ≤ c) {x : BitVec w} (hx : x = word w (q.dequeuePos + 1))
    (hseq : (q.cell c q.dequeuePos).sequence = q.dequeuePos + 1) :
    Shows w c (m.append .dequeue x u) { q with dequeuePos := q.dequeuePos + 1 } := by
  have hsettled : ∀ k, Settled c { q with dequeuePos := q.dequeuePos + 1 } k → Settled c q k := by
    intro k hk
    rcases hk with hk | hk
    · have h2 : k < q.dequeuePos + 1 + c := hk.2.1
      have h3 : (q.cell c k).sequence = k := hk.2.2
      refine .inl ⟨hk.1, ?_, h3⟩
      by_contra hge
      obtain rfl : k = q.dequeuePos + c := by omega
      rw [cell_lap] at h3
      omega
    · exact .inr ⟨Nat.le_of_succ_le hk.1, hk.2⟩
  obtain ⟨hplain, hmarks, hknows⟩ := h.beside (a := .dequeue) nofun x { q with dequeuePos := q.dequeuePos + 1 } u rfl hsettled
  obtain ⟨enqueueLast, enqueueStores⟩ := append_beside (m := m) (a := .dequeue) (b := .enqueue) nofun x u
  obtain ⟨closedLast, closedStores⟩ := append_beside (m := m) (a := .dequeue) (b := .closed) nofun x u
  refine ⟨hplain, ?_, ?_, ?_, words_append (a := .dequeue) id h.dequeued (by rw [h.dequeue]; exact hx), ?_, hmarks, hknows⟩
  · rw [enqueueLast]
    exact h.enqueue
  · rw [enqueueLast, enqueueStores]
    exact h.enqueued
  · rw [Memory.append_last, h.dequeue]
  · rw [closedLast, closedStores]
    exact h.closed

theorem Shows.closes (h : Shows w c m q) (x : Bool) : Shows w c (m.append .closed x u) { q with closed := x } := by
  obtain ⟨hplain, hmarks, hknows⟩ := h.beside (a := .closed) nofun x { q with closed := x } u rfl fun _ hk => hk
  obtain ⟨enqueueLast, enqueueStores⟩ := append_beside (m := m) (a := .closed) (b := .enqueue) nofun x u
  obtain ⟨dequeueLast, dequeueStores⟩ := append_beside (m := m) (a := .closed) (b := .dequeue) nofun x u
  refine ⟨hplain, ?_, ?_, ?_, ?_, ?_, hmarks, hknows⟩
  · rw [enqueueLast]
    exact h.enqueue
  · rw [enqueueLast, enqueueStores]
    exact h.enqueued
  · rw [dequeueLast]
    exact h.dequeue
  · rw [dequeueLast, dequeueStores]
    exact h.dequeued
  · rw [Memory.append_last, Memory.append_stores]

end

end Atomic

end Yutil
