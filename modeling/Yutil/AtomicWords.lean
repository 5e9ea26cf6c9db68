import Yutil.AtomicHistory

/-!
# Counters of a word

While fewer than half of a word's values are used as tickets, a queue over
words steps exactly as the queue over natural numbers whose image it is.
-/

namespace Yutil

open Interleave

section
variable {N M T : Type} (g : N → M)

def Cell.map (x : Cell N T) : Cell M T := ⟨g x.sequence, x.storage⟩

def AtomicQueue.map (q : AtomicQueue N T) : AtomicQueue M T :=
  ⟨fun i => (q.cells i).map g, g q.enqueuePos, g q.dequeuePos, q.closed⟩

def Frame.map : Frame N T → Frame M T
  | .idle => .idle
  | .checkClosed arg => .checkClosed arg
  | .loadEnqueue arg spins => .loadEnqueue arg spins
  | .loadSequence arg pos spins => .loadSequence arg (g pos) spins
  | .claim arg pos spins => .claim arg (g pos) spins
  | .construct arg pos => .construct arg (g pos)
  | .publish arg pos => .publish arg (g pos)
  | .loadDequeue spins => .loadDequeue spins
  | .loadSequencePop pos spins => .loadSequencePop (g pos) spins
  | .claimPop pos spins => .claimPop (g pos) spins
  | .moveOut pos => .moveOut (g pos)
  | .destroy pos out => .destroy (g pos) out
  | .release pos out => .release (g pos) out
  | .exchangeClosed => .exchangeClosed
  | .loadClosed => .loadClosed
  | .done ticket r => .done (ticket.map g) r

end

namespace Atomic

section
variable {Tid N M T : Type} (g : N → M)

def State.map (s : State Tid N T) : State Tid M T := ⟨s.queue.map g, fun t => (s.pc t).map g⟩

def TicketEvent.map : TicketEvent Tid N T → TicketEvent Tid M T
  | .claimed t k => .claimed t (g k)
  | .constructed t k v => .constructed t (g k) v
  | .published t k => .published t (g k)
  | .popClaimed t k => .popClaimed t (g k)
  | .movedOut t k v => .movedOut t (g k) v
  | .released t k v => .released t (g k) v

theorem map_done {f : Frame N T} {r : Reply T} :
    f.map g = .done none r ↔ f = .done none r := by
  cases f <;> simp [Frame.map]

theorem pushTicket_map (f : Frame N T) : pushTicket (f.map g) = (pushTicket f).map g := by
  cases f <;> rfl

theorem popTicket_map (f : Frame N T) : popTicket (f.map g) = (popTicket f).map g := by
  cases f <;> rfl

end

variable {Tid T : Type} {w c : Nat} {q : NatQueue T}

/-! ## Bounds -/

theorem Lap.sequence_le (h : Lap c q) (hc : 0 < c) (k : Nat) :
    (q.cell c k).sequence ≤ q.dequeuePos + c ∧ (q.cell c k).sequence < q.enqueuePos + c := by
  obtain ⟨j, h1, h2, h3⟩ := Counter.exists_window hc q.dequeuePos k
  rw [← cell_mod q h3]
  have hle := h.le
  have hb := h.bound
  rcases Nat.lt_or_ge j q.enqueuePos with hj | hj
  · have := h.claimed j h1 hj
    omega
  · have := h.free j hj h2
    omega

theorem Lap.le_sequence (h : Lap c q) (hc : 0 < c) {k : Nat} (hk : k ≤ q.enqueuePos) :
    k ≤ (q.cell c k).sequence + c ∧ (k ≤ q.dequeuePos → k + 1 ≤ (q.cell c k).sequence + c) := by
  obtain ⟨j, h1, h2, h3⟩ := Counter.exists_window hc q.dequeuePos k
  have hle := h.le
  have hb := h.bound
  have hkj : k ≤ j + c := by omega
  have hjk : k ≤ q.dequeuePos → k ≤ j := fun hk => Nat.le_trans hk h1
  rw [← cell_mod q h3]
  rcases Nat.lt_or_ge j q.enqueuePos with hj | hj
  · have := h.claimed j h1 hj
    omega
  · have := h.free j hj h2
    omega

/-- No mark on the next push ticket's cell is past it, and none on the next pop ticket's. -/
theorem Lap.next_le (h : Lap c q) (hc : 2 ≤ c) :
    (q.cell c q.enqueuePos).sequence ≤ q.enqueuePos ∧ (q.cell c q.dequeuePos).sequence ≤ q.dequeuePos + 1 := by
  have hle := h.le
  have hb := h.bound
  constructor
  · by_cases hfull : q.enqueuePos < q.dequeuePos + c
    · have := h.free q.enqueuePos (Nat.le_refl _) hfull
      omega
    · have he : q.enqueuePos = q.dequeuePos + c := by omega
      rw [he, cell_lap]
      have := h.claimed q.dequeuePos (Nat.le_refl _) (by omega)
      omega
  · by_cases hempty : q.dequeuePos < q.enqueuePos
    · have := h.claimed q.dequeuePos (Nat.le_refl _) hempty
      omega
    · have := h.free q.dequeuePos (by omega) (by omega)
      omega

/-! ## One step -/

/-- A queue whose cells a mask of a word can index. -/
structure Sized (w c : Nat) (q : NatQueue T) : Prop where
  lap : Lap c q
  pow : ∃ j, j < w ∧ c = 2 ^ j

structure Fits (w c : Nat) (q : NatQueue T) : Prop extends Sized w c q where
  room : q.enqueuePos + c < 2 ^ (w - 1)

/-- The position of a frame is up to half of a word's range behind the counters. -/
def Near (w c : Nat) (q : NatQueue T) : Frame Nat T → Prop
  | .loadSequence _ pos _ | .claim _ pos _ => q.enqueuePos + c ≤ pos + 2 ^ (w - 1)
  | .loadSequencePop pos _ | .claimPop pos _ => q.dequeuePos + c ≤ pos + 2 ^ (w - 1)
  | _ => True

abbrev word (w k : Nat) : BitVec w := BitVec.ofNat w k

namespace Sized

theorem pos (h : Sized w c q) : 0 < c := by
  obtain ⟨j, -, rfl⟩ := h.pow
  exact Nat.two_pow_pos j

theorem half (h : Sized w c q) : 0 < w ∧ c ≤ 2 ^ (w - 1) ∧ 2 ^ (w - 1) < 2 ^ w := by
  obtain ⟨j, hj, rfl⟩ := h.pow
  exact ⟨by omega, Nat.pow_le_pow_right (by omega) (by omega), Nat.pow_lt_pow_right (by omega) (by omega)⟩

theorem cell (h : Sized w c q) (k : Nat) : (q.map (word w)).cell c (word w k) = (q.cell c k).map (word w) := by
  show ((q.cells (Counter.slot c (word w k))).map (word w)) = _
  rw [Counter.slot_word h.pow]
  rfl

theorem update_cells (h : Sized w c q) (k : Nat) (x : Cell Nat T) :
    Function.update (q.map (word w)).cells (Counter.slot c (word w k)) (x.map (word w)) =
      fun i => (Function.update q.cells (Counter.slot c k) x i).map (word w) := by
  rw [Counter.slot_word h.pow]
  funext i
  by_cases hi : i = k % c
  · subst hi
    show _ = (Function.update q.cells (k % c) x (k % c)).map (word w)
    rw [Function.update_self, Function.update_self]
  · show _ = (Function.update q.cells (k % c) x i).map (word w)
    rw [Function.update_of_ne hi, Function.update_of_ne hi]
    rfl

theorem store (h : Sized w c q) (k x : Nat) :
    (q.map (word w)).store c (word w k) (word w x) = (q.store c k x).map (word w) := by
  have hu := h.update_cells k { q.cell c k with sequence := x }
  unfold AtomicQueue.store
  rw [h.cell k]
  exact congrArg (fun cells => AtomicQueue.mk cells _ _ _) hu

theorem place (h : Sized w c q) (k : Nat) (x : Option T) :
    (q.map (word w)).place c (word w k) x = (q.place c k x).map (word w) := by
  have hu := h.update_cells k { q.cell c k with storage := x }
  unfold AtomicQueue.place
  rw [h.cell k]
  exact congrArg (fun cells => AtomicQueue.mk cells _ _ _) hu

theorem dif (h : Sized w c q) {k : Nat} (hk : k ≤ q.enqueuePos) (hn : q.enqueuePos + c ≤ k + 2 ^ (w - 1)) :
    Counter.dif ((q.map (word w)).cell c (word w k)).sequence (word w k) = Counter.dif (q.cell c k).sequence k := by
  obtain ⟨hw, hhalf, -⟩ := h.half
  have := (h.lap.sequence_le h.pos k).2
  have := (h.lap.le_sequence h.pos hk).1
  rw [h.cell k]
  exact Counter.dif_word_near hw (by omega) (by omega)

theorem difPop (h : Sized w c q) {k : Nat} (hk : k ≤ q.dequeuePos) (hn : q.dequeuePos + c ≤ k + 2 ^ (w - 1)) :
    Counter.dif ((q.map (word w)).cell c (word w k)).sequence (Counter.plus (word w k) 1) =
      Counter.dif (q.cell c k).sequence (Counter.plus k 1) := by
  obtain ⟨hw, hhalf, -⟩ := h.half
  have := (h.lap.sequence_le h.pos k).1
  have := (h.lap.le_sequence h.pos (Nat.le_trans hk h.lap.le)).2 hk
  rw [h.cell k, Counter.plus_word]
  exact Counter.dif_word_near hw (by omega) (by omega)

theorem enqueuePos_eq (h : Sized w c q) {k : Nat} (hk : k ≤ q.enqueuePos) (hn : q.enqueuePos + c ≤ k + 2 ^ (w - 1)) :
    (q.map (word w)).enqueuePos = word w k ↔ q.enqueuePos = k := by
  obtain ⟨-, -, hlt⟩ := h.half
  exact Counter.word_eq hk (by omega)

theorem dequeuePos_eq (h : Sized w c q) {k : Nat} (hk : k ≤ q.dequeuePos) (hn : q.dequeuePos + c ≤ k + 2 ^ (w - 1)) :
    (q.map (word w)).dequeuePos = word w k ↔ q.dequeuePos = k := by
  obtain ⟨-, -, hlt⟩ := h.half
  exact Counter.word_eq hk (by omega)

variable [Elem T] {backoff : Nat → Nat}

theorem act (h : Sized w c q) {f : Frame Nat T} (hf : FrameOk c q f) (hn : Near w c q f) (m : Move) :
    (q.map (word w)).act backoff c m (f.map (word w)) =
      (q.act backoff c m f).map fun x => (x.1.map (word w), x.2.map (word w)) := by
  cases f with
  | idle => cases m <;> rfl
  | checkClosed arg =>
    cases m with
    | go =>
      show (if q.closed then _ else _) = (if q.closed then _ else _ : Option _).map _
      split <;> rfl
    | _ => rfl
  | loadEnqueue arg spins => cases m <;> rfl
  | loadSequence arg pos spins =>
    cases m with
    | go =>
      simp only [AtomicQueue.act, Frame.map]
      rw [h.dif hf hn]
      split
      · rfl
      · split <;> rfl
    | _ => rfl
  | claim arg pos spins =>
    have hb : pos ≤ q.enqueuePos := by rcases hf with hf | hf <;> omega
    cases m with
    | go =>
      simp only [AtomicQueue.act, Frame.map]
      simp only [h.enqueuePos_eq hb hn]
      split
      · exact congrArg (fun p => some (AtomicQueue.mk _ p _ _, Frame.construct arg (word w pos))) (Counter.plus_word pos 1)
      · rfl
    | spurious => rfl
    | throws => rfl
  | construct arg pos =>
    cases m with
    | go =>
      have hp := h.place pos (some arg)
      exact congrArg (fun q' => some (q', Frame.publish (Elem.moved arg) (word w pos))) hp
    | throws => rfl
    | spurious => rfl
  | publish arg pos =>
    cases m with
    | go =>
      have hs := h.store pos (pos + 1)
      simp only [AtomicQueue.act, Frame.map]
      rw [Counter.plus_word, hs]
      rfl
    | throws => rfl
    | spurious => rfl
  | loadDequeue spins => cases m <;> rfl
  | loadSequencePop pos spins =>
    cases m with
    | go =>
      simp only [AtomicQueue.act, Frame.map]
      rw [h.difPop hf hn]
      split
      · rfl
      · split <;> rfl
    | _ => rfl
  | claimPop pos spins =>
    have hb : pos ≤ q.dequeuePos := by rcases hf with hf | hf <;> omega
    cases m with
    | go =>
      simp only [AtomicQueue.act, Frame.map]
      simp only [h.dequeuePos_eq hb hn]
      split
      · exact congrArg (fun p => some (AtomicQueue.mk _ _ p _, Frame.moveOut (word w pos))) (Counter.plus_word pos 1)
      · rfl
    | spurious => rfl
    | throws => rfl
  | moveOut pos =>
    cases m with
    | go =>
      simp only [AtomicQueue.act, Frame.map]
      rw [h.cell pos]
      simp only [Cell.map]
      rw [h.place pos]
      rfl
    | throws => rfl
    | spurious => rfl
  | destroy pos out =>
    cases m with
    | go =>
      have hp := h.place pos none
      exact congrArg (fun q' => some (q', Frame.release (word w pos) out)) hp
    | throws => rfl
    | spurious => rfl
  | release pos out =>
    cases m with
    | go =>
      have hs := h.store pos (pos + c)
      simp only [AtomicQueue.act, Frame.map]
      rw [Counter.plus_word, hs]
      rfl
    | throws => rfl
    | spurious => rfl
  | exchangeClosed => cases m <;> rfl
  | loadClosed => cases m <;> rfl
  | done k r => cases m <;> rfl

end Sized

theorem Fits.near (h : Fits w c q) (f : Frame Nat T) : Near w c q f := by
  have := h.room
  have := h.lap.le
  cases f <;> simp only [Near] <;> omega

theorem Fits.eq_iff (h : Fits w c q) {j k : Nat} (hj : j ≤ q.enqueuePos) (hk : k ≤ q.enqueuePos) :
    word w j = word w k ↔ j = k := by
  have := h.half.2.2
  have := h.room
  exact ⟨Counter.word_inj (by omega) (by omega), congrArg _⟩

/-! ## Runs -/

variable {s : State Tid Nat T}

theorem Inv.fits (h : Inv c s) (hc : ∃ j, j < w ∧ c = 2 ^ j) (hr : s.queue.enqueuePos + c < 2 ^ (w - 1)) :
    Fits w c s.queue := ⟨⟨h.lap, hc⟩, hr⟩

theorem pushClaims_map (g : Nat → BitVec w) (log : List (TicketEvent Tid Nat T)) :
    pushClaims (log.map (TicketEvent.map g)) = (pushClaims log).map g := by
  simp only [pushClaims, List.filterMap_map, List.map_filterMap]
  refine congrFun (congrArg List.filterMap (funext fun e => ?_)) _
  cases e <;> rfl

theorem popClaims_map (g : Nat → BitVec w) (log : List (TicketEvent Tid Nat T)) :
    popClaims (log.map (TicketEvent.map g)) = (popClaims log).map g := by
  simp only [popClaims, List.filterMap_map, List.map_filterMap]
  refine congrFun (congrArg List.filterMap (funext fun e => ?_)) _
  cases e <;> rfl

section
variable [Elem T]

theorem trace_word (h : Inv c s) (hq : Sized w c s.queue) (hn : ∀ t, Near w c s.queue (s.pc t)) (a : Label Tid T) :
    trace c (s.map (word w)) a = (trace c s a).map (TicketEvent.map (word w)) := by
  cases a with
  | move t m =>
    have hf := h.frames t
    have hn := hn t
    have hpc : (s.map (word w)).pc t = (s.pc t).map (word w) := rfl
    have hqueue : (s.map (word w)).queue = s.queue.map (word w) := rfl
    cases m with
    | go =>
      simp only [trace, hpc, hqueue]
      cases hp : s.pc t with
      | claim arg pos spins =>
        rw [hp] at hf hn
        have hb : pos ≤ s.queue.enqueuePos := by rcases hf with hf | hf <;> omega
        simp only [Frame.map, hq.enqueuePos_eq hb hn]
        split <;> rfl
      | claimPop pos spins =>
        rw [hp] at hf hn
        have hb : pos ≤ s.queue.dequeuePos := by rcases hf with hf | hf <;> omega
        simp only [Frame.map, hq.dequeuePos_eq hb hn]
        split <;> rfl
      | moveOut pos =>
        simp only [Frame.map, hq.cell pos]
        rfl
      | _ => rfl
    | _ => rfl
  | _ => rfl

def words (w : Nat) (y : State Tid Nat T × List (TicketEvent Tid Nat T)) :
    State Tid (BitVec w) T × List (TicketEvent Tid (BitVec w) T) :=
  (y.1.map (word w), y.2.map (TicketEvent.map (word w)))

theorem words_claims {y : State Tid Nat T × List (TicketEvent Tid Nat T)} (hR : Recorded c y.1 y.2) :
    (pushClaims (words w y).2).length = y.1.queue.enqueuePos := by
  rw [words, pushClaims_map, List.length_map, hR.pushes, List.length_range]

end

section
variable [DecidableEq Tid]

theorem map_update (g : Nat → BitVec w) (pc : Tid → Frame Nat T) (t : Tid) (f : Frame Nat T) :
    (fun u => (Function.update pc t f u).map g) = Function.update (fun u => (pc u).map g) t (f.map g) :=
  Function.comp_update (Frame.map g) pc t f

variable [Elem T] {backoff : Nat → Nat}

theorem step_word (h : Inv c s) (hq : Sized w c s.queue) (hn : ∀ t, Near w c s.queue (s.pc t)) (throwing : Bool)
    (a : Label Tid T) :
    step backoff c throwing (s.map (word w)) a = (step backoff c throwing s a).map (State.map (word w)) := by
  cases a with
  | call t op =>
    have hpc : (s.map (word w)).pc t = (s.pc t).map (word w) := rfl
    simp only [step, hpc]
    cases s.pc t with
    | idle =>
      have hm := map_update (word w) s.pc t (AtomicQueue.enter op)
      have he : (AtomicQueue.enter op : Frame Nat T).map (word w) = AtomicQueue.enter op := by cases op <;> rfl
      rw [he] at hm
      exact congrArg (fun pc => some (State.mk _ pc)) hm.symm
    | _ => rfl
  | move t m =>
    have hpc : (s.map (word w)).pc t = (s.pc t).map (word w) := rfl
    simp only [step, hpc]
    split
    · rfl
    · show ((s.queue.map (word w)).act backoff c m ((s.pc t).map (word w))).map _ = _
      rw [hq.act (h.frames t) (hn t) m, Option.map_map, Option.map_map]
      refine congrFun (congrArg Option.map (funext fun x => ?_)) _
      exact congrArg (State.mk _) (map_update (word w) s.pc t x.2).symm
  | ret t =>
    have hpc : (s.map (word w)).pc t = (s.pc t).map (word w) := rfl
    simp only [step, hpc]
    cases s.pc t with
    | done k r =>
      have hm := map_update (word w) s.pc t .idle
      exact congrArg (fun pc => some (State.mk _ pc)) hm.symm
    | _ => rfl

/-- A step of the queue over words, with its log, is one of the queue over naturals. -/
theorem logged_word {y : State Tid Nat T × List (TicketEvent Tid Nat T)} (hI : Inv c y.1) (hq : Sized w c y.1.queue)
    (hn : ∀ t, Near w c y.1.queue (y.1.pc t)) (throwing : Bool) (a : Label Tid T) :
    ((machine Tid (BitVec w) T backoff c throwing).logged (trace c)).step (words w y) a =
      (((machine Tid Nat T backoff c throwing).logged (trace c)).step y a).map (words w) := by
  have hlog : (words w y).2 ++ trace c (words w y).1 a = (y.2 ++ trace c y.1 a).map (TicketEvent.map (word w)) := by
    rw [words, trace_word hI hq hn, List.map_append]
  show (step backoff c throwing (y.1.map (word w)) a).map _ = ((step backoff c throwing y.1 a).map _).map _
  rw [step_word hI hq hn, Option.map_map, Option.map_map]
  exact congrArg (fun f => Option.map f (step backoff c throwing y.1 a)) (funext fun s' => Prod.ext rfl hlog)

variable (Tid T w) in
def wordMachine (backoff : Nat → Nat) (c : Nat) :
    Machine (State Tid (BitVec w) T × List (TicketEvent Tid (BitVec w) T)) (Label Tid T) :=
  (machine Tid (BitVec w) T backoff c false).logged (trace c)

variable {x : State Tid (BitVec w) T × List (TicketEvent Tid (BitVec w) T)}

theorem words_step {y : State Tid Nat T × List (TicketEvent Tid Nat T)} {a : Label Tid T}
    (hR : Recorded c y.1 y.2) (hc : ∃ j, j < w ∧ c = 2 ^ j) (hroom : y.1.queue.enqueuePos + c < 2 ^ (w - 1))
    (hs : (wordMachine Tid T w backoff c).step (words w y) a = some x) :
    ∃ y', (natMachine Tid T backoff c).step y a = some y' ∧ x = words w y' := by
  have hq := hR.inv.fits hc hroom
  rw [wordMachine, logged_word hR.inv hq.toSized fun t => hq.near _] at hs
  obtain ⟨y', hy, hx⟩ := Option.map_eq_some_iff.mp hs
  exact ⟨y', hy, hx.symm⟩

/-- **The counters can be read as naturals** while the claimed tickets stay
under half of the range by a lap. -/
theorem words_of_reachable (hc : 2 ≤ c) (hc' : ∃ j, j < w ∧ c = 2 ^ j) (h : (wordMachine Tid T w backoff c).Reachable x)
    (hlt : (pushClaims x.2).length + c < 2 ^ (w - 1)) :
    ∃ y, (natMachine Tid T backoff c).Reachable y ∧ x = words w y := by
  induction h with
  | start => exact ⟨_, .start, rfl⟩
  | step _ hs ih =>
    have h2 := (Machine.logged_step.mp hs).2
    rw [h2, pushClaims, List.filterMap_append, List.length_append] at hlt
    obtain ⟨y, hy, rfl⟩ := ih (by rw [pushClaims]; omega)
    have hR := recorded_reachable hc hy
    have hlen := words_claims (w := w) hR
    rw [pushClaims] at hlen
    obtain ⟨y', hy', rfl⟩ := words_step hR hc' (by omega) hs
    exact ⟨y', .step hy hy', rfl⟩

end

end Atomic

end Yutil
