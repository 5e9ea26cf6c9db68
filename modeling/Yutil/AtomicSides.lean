import Yutil.AtomicCells
import Yutil.AtomicSolo

/-!
# The two sides of a queue in a memory of views

`emplace` and `try_pop` look for their tickets in the same way: they read a
position, compare the number of its cell, and exchange the position. A call
that has its ticket owns the cell until it stores the number.
-/

namespace Yutil

open Interleave

namespace Side

open Atomic

section
variable {Tid N T : Type} [Counter N] {c i : Nat} {t : Tid} {arg : T} {pos : N} {spins : Nat} {m m' : Memory (Word N) Nat (Option T)}
  {v v' : View Place Nat}

def place : Side → Place
  | .push => .enqueue
  | .pop => .dequeue

def starting (arg : T) (spins : Nat) : Side → Frame N T
  | .push => .loadEnqueue arg spins
  | .pop => .loadDequeue spins

def comparing (arg : T) (pos : N) (spins : Nat) : Side → Frame N T
  | .push => .loadSequence arg pos spins
  | .pop => .loadSequencePop pos spins

def claiming (arg : T) (pos : N) (spins : Nat) : Side → Frame N T
  | .push => .claim arg pos spins
  | .pop => .claimPop pos spins

def claimed (arg : T) (pos : N) : Side → Frame N T
  | .push => .construct arg pos
  | .pop => .moveOut pos

def giving (arg : T) (pos : N) : Side → Frame N T
  | .push => .publish arg pos
  | .pop => .release pos arg

def reply (arg : T) : Side → Reply T
  | .push => .pushed true arg
  | .pop => .popped (some arg)

def refused (arg : T) : Side → Frame N T
  | .push => .done none (.pushed false arg)
  | .pop => .done none (.popped none)

def event (t : Tid) (pos : N) : Side → TicketEvent Tid N T
  | .push => .claimed t pos
  | .pop => .popClaimed t pos

def advance (q : AtomicQueue N T) : Side → AtomicQueue N T
  | .push => { q with enqueuePos := Counter.plus q.enqueuePos 1 }
  | .pop => { q with dequeuePos := Counter.plus q.dequeuePos 1 }

def read (m : Memory (Word N) Nat (Option T)) (j : Nat) : Side → N
  | .push => (m.stores .enqueue j).value
  | .pop => (m.stores .dequeue j).value

def append (m : Memory (Word N) Nat (Option T)) (x : N) (u : View Place Nat) : Side → Memory (Word N) Nat (Option T)
  | .push => m.append .enqueue x u
  | .pop => m.append .dequeue x u

variable [DecidableEq N] {backoff : Nat → Nat} {move : Move} {f : Frame N T}

theorem exchange_some {x y : N} : exchange pos x = some y ↔ x = pos ∧ Counter.plus pos 1 = y := by
  simp only [exchange, Option.ite_none_right_eq_some, Option.some.injEq]

theorem exchange_none {x : N} : exchange pos x = none ↔ x ≠ pos := by
  simp only [exchange, ite_eq_right_iff, reduceCtorEq, imp_false, ne_eq]

variable [Elem T]

/-- What a compare-exchange does: the position was the last one and is taken, or another is read. -/
theorem access_claiming (side : Side) {x : Action (Word N) Nat (Option T) (Frame N T)}
    (hx : access backoff c move (side.claiming arg pos spins) = some x) (hr : m.Runs v i x m' v' f) :
    (move = .go ∧ i = m.last side.place ∧ side.read m i = pos ∧ f = side.claimed arg pos ∧ v ≤ v' ∧
      ∃ u, m' = side.append m (Counter.plus pos 1) u) ∨
    m' = m ∧ i ≤ m.last side.place ∧ (move = .go → side.read m i ≠ pos) ∧
      f = side.comparing arg (side.read m i) (backoff spins) := by
  cases move with
  | go =>
    cases side <;> cases hx <;> cases hr with
    | wrote h1 hv hi =>
      subst hi
      obtain ⟨he, rfl⟩ := exchange_some.mp hv
      exact .inl ⟨rfl, rfl, he, rfl, le_sup_left, _, rfl⟩
    | failed h1 h2 hv => exact .inr ⟨rfl, h2, fun _ => exchange_none.mp hv, rfl⟩
  | spurious =>
    cases side <;> cases hx <;> cases hr with
    | load h1 h2 => exact .inr ⟨rfl, h2, by simp, rfl⟩
  | throws => cases side <;> cases hx

end

section
variable {Tid T : Type} {w c k : Nat} {q : NatQueue T} {y : State Tid Nat T} {t : Tid} {arg : T} {pos spins : Nat}
  {m : Memory (Word (BitVec w)) Nat (Option T)} {v : View Place Nat} {backoff : Nat → Nat}

theorem cursor_le (side : Side) (h : Lap c q) : side.cursor q ≤ q.enqueuePos := by
  cases side with
  | push => exact Nat.le_refl _
  | pop => exact h.le

theorem mark_bounds (side : Side) (k : Nat) : k ≤ side.mark k ∧ side.mark k ≤ k + 1 := by
  cases side with
  | push => exact ⟨Nat.le_refl k, Nat.le_succ k⟩
  | pop => exact ⟨Nat.le_succ k, Nat.le_refl _⟩

theorem mark_word (side : Side) (k : Nat) : side.mark (word w k) = word w (side.mark k) := by
  cases side with
  | push => rfl
  | pop => exact Counter.plus_word k 1

theorem leaves_word (side : Side) (k : Nat) : side.leaves c (word w k) = word w (side.leaves c k) := by
  cases side with
  | push => exact Counter.plus_word k 1
  | pop => exact Counter.plus_word k c

theorem spot_claimed (side : Side) (arg : T) (pos : Nat) :
    ∃ j, spot c (side.claimed arg pos) = some j ∧ spot c (side.giving arg pos) = some j ∧ j % c = pos % c := by
  cases side with
  | push => exact ⟨pos, rfl, rfl, rfl⟩
  | pop => exact ⟨pos + c, rfl, rfl, Nat.add_mod_right pos c⟩

theorem claiming_ok (side : Side) : FrameOk c q (side.claiming arg pos spins) ↔
    pos < side.cursor q ∨ pos = side.cursor q ∧ (q.cell c pos).sequence = side.mark pos := by
  cases side <;> exact Iff.rfl

theorem comparing_ok (side : Side) : FrameOk c q (side.comparing arg pos spins) ↔ pos ≤ side.cursor q := by
  cases side <;> exact Iff.rfl

theorem giving_ok (side : Side) (hc : 2 ≤ c) (h : FrameOk c q (side.giving arg pos)) :
    (q.cell c pos).sequence < side.leaves c pos := by
  cases side with
  | push => exact Nat.lt_succ_of_le (Nat.le_of_eq h.2.2.1)
  | pop =>
    rw [h.2.2.1]
    exact Nat.add_lt_add_left hc pos

theorem next_mark (side : Side) (h : Lap c q) (hc : 2 ≤ c) :
    (q.cell c (side.cursor q)).sequence ≤ side.mark (side.cursor q) := by
  cases side with
  | push => exact (h.next_le hc).1
  | pop => exact (h.next_le hc).2

theorem settled_cursor (side : Side) (h : Lap c q) (hc : 2 ≤ c)
    (hseq : (q.cell c (side.cursor q)).sequence = side.mark (side.cursor q)) : Settled c q (side.cursor q) := by
  cases side with
  | push => exact .inl ⟨Nat.le_refl _, (h.room hc hseq).1, hseq⟩
  | pop => exact .inr ⟨Nat.le_refl _, (h.item hc hseq).1, hseq⟩

theorem shows_cursor (side : Side) (h : Shows w c m q) : m.last side.place = side.cursor q := by
  cases side with
  | push => exact h.enqueue
  | pop => exact h.dequeue

theorem shows_read (side : Side) (h : Shows w c m q) (hk : k ≤ m.last side.place) : side.read m k = word w k := by
  cases side with
  | push => exact h.enqueued k hk
  | pop => exact h.dequeued k hk

theorem held_append (side : Side) (h : Held m v k) (x : BitVec w) (u : View Place Nat) : Held (side.append m x u) v k := by
  cases side with
  | push => exact h.append .enqueue (by simp) x u
  | pop => exact h.append .dequeue (by simp) x u

theorem shows_append (side : Side) (h : Shows w c m q) (hc : 2 ≤ c)
    (hseq : (q.cell c (side.cursor q)).sequence = side.mark (side.cursor q)) {x : BitVec w}
    (hx : x = word w (side.cursor q + 1)) (u : View Place Nat) : Shows w c (side.append m x u) (side.advance q) := by
  cases side with
  | push => exact h.claimed hx hseq
  | pop => exact h.claimedPop hc hx hseq

theorem inv_advance [DecidableEq Tid] (side : Side) (h : Inv c y) (hc : 2 ≤ c)
    (hseq : (y.queue.cell c (side.cursor y.queue)).sequence = side.mark (side.cursor y.queue)) :
    Inv c ⟨side.advance y.queue, Function.update y.pc t (side.claimed arg (side.cursor y.queue))⟩ := by
  cases side with
  | push => exact h.claim hc hseq
  | pop => exact h.claimPop hc hseq

/-- A grip on the cell of the next ticket ends when the ticket is taken; a claim behind it has none. -/
theorem grip_advance (side : Side) {f : Frame Nat T} (hf : FrameOk c q f) (h : grip c (side.advance q) f = some k) :
    grip c q f = some k := by
  cases side with
  | push =>
    cases f with
    | claim arg pos spins =>
      have h : (if pos = q.enqueuePos + 1 then some pos else none) = some k := h
      simp only [Option.ite_none_right_eq_some] at h
      obtain ⟨rfl, -⟩ := h
      rcases hf with hf | hf <;> omega
    | _ => exact h
  | pop =>
    cases f with
    | claimPop pos spins =>
      have h : (if pos = q.dequeuePos + 1 then some pos else none) = some k := h
      simp only [Option.ite_none_right_eq_some] at h
      obtain ⟨rfl, -⟩ := h
      rcases hf with hf | hf <;> omega
    | _ => exact h

theorem grip_claiming (side : Side) : grip c q (side.claiming arg (side.cursor q) spins) = some (side.cursor q) := by
  cases side <;> exact if_pos rfl

theorem grip_claimed (side : Side) (h : grip c q (side.claimed arg pos) = some k) : k % c = pos % c := by
  cases side with
  | push =>
    cases h
    rfl
  | pop =>
    cases h
    exact Nat.add_mod_right pos c

variable [Elem T]

theorem acts_claiming (side : Side) : q.Acts backoff c .go (side.claiming arg (side.cursor q) spins) (side.advance q)
    (side.claimed arg (side.cursor q)) := by
  cases side with
  | push => exact .claim rfl
  | pop => exact .claimPop rfl

theorem trace_claiming (side : Side) (hpc : y.pc t = side.claiming arg (side.cursor y.queue) spins) :
    trace c y (.move t .go) = [side.event t (side.cursor y.queue)] := by
  cases side with
  | push => exact trace_claim hpc rfl
  | pop => exact trace_claimPop hpc rfl

end

end Side

end Yutil
