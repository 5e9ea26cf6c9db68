import Yutil.AtomicSides
import Yutil.AtomicDelivery

/-!
# Release and acquire in the atomic queues

The store of a cell's sequence number hands the cell over: whoever has read the
last store of a settled cell has seen all accesses to its slot. The positions
are exchanged relaxed, and need no more, as an old position, or an old sequence
number, lets nobody into a cell.
-/

namespace Yutil

open Interleave

namespace Atomic

abbrev Weak (Tid N T : Type) := Program.Viewed Tid (Word N) Nat (Option T) (Frame N T)

/-- What a step does with a ticket, by the store that it reads. -/
def ticketEvents {Tid N T : Type} [Counter N] [DecidableEq N] [Elem T] (capacity : Nat)
    (m : Memory (Word N) Nat (Option T)) (i : Nat) (t : Tid) : Move → Frame N T → List (TicketEvent Tid N T)
  | .go, .claim _ pos _ => if (m.stores .enqueue i).value = pos then [.claimed t pos] else []
  | .go, .construct arg pos => [.constructed t pos arg]
  | .go, .publish _ pos => [.published t pos]
  | .go, .claimPop pos _ => if (m.stores .dequeue i).value = pos then [.popClaimed t pos] else []
  | .go, .moveOut pos => [.movedOut t pos ((m.plain (Counter.slot capacity pos)).getD default)]
  | .go, .release pos out => [.released t pos out]
  | _, _ => []

def trail {Tid N T : Type} [Counter N] [DecidableEq N] [Elem T] (capacity : Nat) (s : Weak Tid N T) :
    Program.Label Tid (Env T) (Move × Nat) → List (TicketEvent Tid N T)
  | .env _ _ => []
  | .move t (m, i) => ticketEvents capacity s.mem i t m (s.pc t)

theorem ticketEvents_claiming {Tid N T : Type} [Counter N] [DecidableEq N] [Elem T] (side : Side) {c i : Nat} {t : Tid} {arg : T}
    {pos : N} {spins : Nat} {m : Memory (Word N) Nat (Option T)} {move : Move} :
    ticketEvents c m i t move (side.claiming arg pos spins) =
      if move = .go ∧ side.read m i = pos then [side.event t pos] else [] := by
  cases side <;> cases move <;> simp [ticketEvents, Side.claiming, Side.read, Side.event]

/-! ## The threads -/

section
variable {Tid T : Type}

/-- The threads and their memory, against a state over counters that do not wrap. -/
structure Tied (w c : Nat) (s : Weak Tid (BitVec w) T) (y : State Tid Nat T) : Prop where
  inv : Inv c y
  pc : ∀ t, s.pc t = (y.pc t).map (word w)
  mem : Shows w c s.mem y.queue
  grips : ∀ t k, grip c y.queue (y.pc t) = some k → Held s.mem (s.view t) (k % c)

theorem grip_congr {c : Nat} {q q' : NatQueue T} (he : q'.enqueuePos = q.enqueuePos) (hd : q'.dequeuePos = q.dequeuePos)
    (f : Frame Nat T) : grip c q' f = grip c q f := by
  cases f with
  | claim arg pos spins => simp only [grip, he]
  | claimPop pos spins => simp only [grip, hd]
  | _ => rfl

theorem grip_spot {c i : Nat} {q : NatQueue T} {f : Frame Nat T} (h : spot c f = some i) : grip c q f = some i := by
  cases f with
  | claim arg pos spins => cases h
  | claimPop pos spins => cases h
  | _ => exact h

theorem gripless {c : Nat} {q : NatQueue T} {f : Frame Nat T} {p : Nat → Prop} (h : grip c q f = none) :
    ∀ k, grip c q f = some k → p k := by
  intro k hk
  rw [h] at hk
  cases hk

theorem spotless {c : Nat} {f : Frame Nat T} (h : spot c f = none) : pushTicket f = none ∧ popTicket f = none := by
  cases f with
  | construct arg pos => cases h
  | publish arg pos => cases h
  | moveOut pos => cases h
  | destroy pos out => cases h
  | release pos out => cases h
  | _ => exact ⟨rfl, rfl⟩

variable [DecidableEq Tid] {w c i k : Nat} {s : Weak Tid (BitVec w) T} {y : State Tid Nat T} {t : Tid} {f : Frame Nat T}
  {v : View Place Nat} {q : NatQueue T} {mem : Memory (Word (BitVec w)) Nat (Option T)}

/-- What is left to show when thread `t` has made its step. -/
theorem Tied.moves (h : Tied w c s y) (hinv : Inv c ⟨q, Function.update y.pc t f⟩) (hmem : Shows w c mem q)
    (ht : ∀ k, grip c q f = some k → Held mem v (k % c))
    (hu : ∀ u, u ≠ t → ∀ k, grip c q (y.pc u) = some k → Held mem (s.view u) (k % c)) :
    Tied w c ⟨mem, Function.update s.view t v, Function.update s.pc t (f.map (word w))⟩ ⟨q, Function.update y.pc t f⟩ := by
  refine ⟨hinv, fun u => ?_, hmem, fun u k hk => ?_⟩
  · by_cases hut : u = t
    · subst hut
      simp only [Function.update_self]
    · simp only [Function.update_of_ne hut]
      exact h.pc u
  · by_cases hut : u = t
    · subst hut
      simp only [Function.update_self] at hk ⊢
      exact ht k hk
    · simp only [Function.update_of_ne hut] at hk ⊢
      exact hu u hut k hk

theorem Tied.reads (h : Tied w c s y) (hok : FrameOk c y.queue f) (hspot : spot c f = none)
    (hgrip : ∀ k, grip c y.queue f = some k → Held s.mem v (k % c)) :
    Tied w c ⟨s.mem, Function.update s.view t v, Function.update s.pc t (f.map (word w))⟩
      ⟨y.queue, Function.update y.pc t f⟩ := by
  obtain ⟨h1, h2⟩ := spotless hspot
  exact h.moves (h.inv.keeps h.inv.lap (fun u _ => h.inv.frames u) hok (.inl h1) (.inl h2)) h.mem hgrip fun u _ => h.grips u

theorem Tied.touches (h : Tied w c s y) (hc : 2 ≤ c) (hspot : spot c (y.pc t) = some i) {x : Option T}
    (he : q.enqueuePos = y.queue.enqueuePos) (hd : q.dequeuePos = y.queue.dequeuePos) (hcl : q.closed = y.queue.closed)
    (hcells : q.cells = Function.update y.queue.cells (i % c) ⟨(y.queue.cells (i % c)).sequence, x⟩)
    (hinv : Inv c ⟨q, Function.update y.pc t f⟩) (hf : ∀ k, grip c q f = some k → k % c = i % c) :
    Tied w c ⟨s.mem.touch (i % c) x, Function.update s.view t (s.mem.touched (s.view t) (i % c)),
      Function.update s.pc t (f.map (word w))⟩ ⟨q, Function.update y.pc t f⟩ := by
  refine h.moves hinv (h.mem.touch he hd hcl hcells fun k => h.inv.settled_ne hc hspot) (fun k hk => ?_) fun u hu k hk => ?_
  · rw [hf k hk]
    exact (h.grips t i (grip_spot hspot)).touched x
  · rw [grip_congr he hd] at hk
    exact (h.grips u k hk).touch (h.inv.grip_ne hc hspot hu hk) x

theorem Tied.stores (h : Tied w c s y) (hc : 2 ≤ c) (hspot : spot c (y.pc t) = some i) {seq : Nat} {x : BitVec w}
    (he : q.enqueuePos = y.queue.enqueuePos) (hd : q.dequeuePos = y.queue.dequeuePos) (hcl : q.closed = y.queue.closed)
    (hcells : q.cells = Function.update y.queue.cells (i % c) ⟨seq, (y.queue.cells (i % c)).storage⟩)
    (hlt : (y.queue.cells (i % c)).sequence < seq) (hx : x = word w seq)
    (hinv : Inv c ⟨q, Function.update y.pc t f⟩) (hf : grip c q f = none) :
    Tied w c ⟨s.mem.append (.sequence (i % c)) x (s.mem.carried (s.view t) true (.sequence (i % c))),
      Function.update s.view t (s.mem.stored (s.view t) (.sequence (i % c))), Function.update s.pc t (f.map (word w))⟩
      ⟨q, Function.update y.pc t f⟩ := by
  have hheld := h.grips t i (grip_spot hspot)
  refine h.moves hinv (h.mem.stored he hd hcl hcells hlt hx (hheld.knows.mono le_sup_left)) (fun k hk => ?_) fun u hu k hk => ?_
  · rw [hf] at hk
    cases hk
  · rw [grip_congr he hd] at hk
    refine (h.grips u k hk).append (.sequence (i % c)) (fun he => ?_) x _
    exact h.inv.grip_ne hc hspot hu hk (Place.sequence.inj he)

/-- A successful exchange of a position. -/
theorem Tied.claims (side : Side) (h : Tied w c s y) (hc : 2 ≤ c) {arg : T} {spins : Nat}
    (hpc : y.pc t = side.claiming arg (side.cursor y.queue) spins) {x : BitVec w} (hx : x = word w (side.cursor y.queue + 1))
    (u : View Place Nat) (hv : s.view t ≤ v) :
    Tied w c ⟨side.append s.mem x u, Function.update s.view t v,
      Function.update s.pc t ((side.claimed arg (side.cursor y.queue)).map (word w))⟩
      ⟨side.advance y.queue, Function.update y.pc t (side.claimed arg (side.cursor y.queue))⟩ := by
  have hf := h.inv.frames t
  rw [hpc, side.claiming_ok] at hf
  have hseq : (y.queue.cell c (side.cursor y.queue)).sequence = side.mark (side.cursor y.queue) := by
    rcases hf with hf | hf
    · exact absurd hf (Nat.lt_irrefl _)
    · exact hf.2
  have hheld : Held s.mem (s.view t) (side.cursor y.queue % c) := by
    refine h.grips t (side.cursor y.queue) ?_
    rw [hpc]
    exact side.grip_claiming
  refine h.moves (side.inv_advance h.inv hc hseq) (side.shows_append h.mem hc hseq hx u) (fun k hk => ?_) fun u hu k hk => ?_
  · rw [side.grip_claimed hk]
    exact side.held_append (hheld.mono hv) x _
  · exact side.held_append (h.grips u k (side.grip_advance (h.inv.frames u) hk)) x _

theorem Tied.closes (h : Tied w c s y) (b : Bool) (u : View Place Nat) {r : Reply T} :
    Tied w c ⟨s.mem.append .closed b u, Function.update s.view t v, Function.update s.pc t ((Frame.done none r).map (word w))⟩
      ⟨{ y.queue with closed := b }, Function.update y.pc t (.done none r)⟩ := by
  refine h.moves ?_ (h.mem.closes b) (gripless rfl) fun u hu k hk => ?_
  · exact h.inv.keeps (h.inv.lap.close _) (fun u _ => (h.inv.frames u).close _) trivial (.inl rfl) (.inl rfl)
  · have hk := (grip_congr (q := y.queue) rfl rfl (y.pc u)).symm.trans hk
    exact (h.grips u k hk).append .closed (by simp) b _

/-! ## Steps -/

variable [Elem T] {backoff : Nat → Nat} {m : Move} {s' : Weak Tid (BitVec w) T} {emitted : List (TicketEvent Tid (BitVec w) T)}

/-- The step is one of the queue over counters that do not wrap, or changes no location and has to do with no ticket. -/
def Follows (w c : Nat) (s' : Weak Tid (BitVec w) T) (y : State Tid Nat T) (m : Move)
    (emitted : List (TicketEvent Tid (BitVec w) T)) : Prop :=
  ∃ y' events, Tied w c s' y' ∧ emitted = events.map (TicketEvent.map (word w)) ∧
    y'.queue.enqueuePos = y.queue.enqueuePos + (pushClaims events).length ∧
    ∀ log, m ≠ .throws → Recorded c y log → Recorded c y' (log ++ events)

theorem Tied.quiet (h : Tied w c s y) (hold : spot c (y.pc t) = none) (hok : FrameOk c y.queue f) (hspot : spot c f = none)
    (hgrip : ∀ k, grip c y.queue f = some k → Held s.mem v (k % c)) (hemit : emitted = []) :
    Follows w c ⟨s.mem, Function.update s.view t v, Function.update s.pc t (f.map (word w))⟩ y m emitted := by
  obtain ⟨h1, h2⟩ := spotless hold
  have hr := h.reads (t := t) hok hspot hgrip
  exact ⟨_, [], hr, hemit, rfl, fun log _ hR => hR.quiet hr.inv rfl rfl rfl h1 h2 (spotless hspot).2⟩

omit [DecidableEq Tid] in
theorem trace_claims {g : Frame Nat T} (hpc : y.pc t = g) (ha : y.queue.Acts backoff c m g q f) :
    q.enqueuePos = y.queue.enqueuePos + (pushClaims (trace c y (.move t m))).length := by
  cases ha with
  | claim he =>
    rw [trace_claim hpc he, he]
    rfl
  | claimPop he =>
    rw [trace_claimPop hpc he]
    rfl
  | lost hl =>
    rw [trace_lost hpc hl]
    rfl
  | lostPop hl =>
    rw [trace_lostPop hpc hl]
    rfl
  | constructThrows => rfl
  | moveOutThrows => rfl
  | _ =>
    simp only [trace, hpc]
    rfl

theorem Tied.follows (hc : 2 ≤ c) (h : Tied w c s' ⟨q, Function.update y.pc t f⟩)
    (ha : y.queue.Acts backoff c m (y.pc t) q f) (hemit : emitted = (trace c y (.move t m)).map (TicketEvent.map (word w))) :
    Follows w c s' y m emitted :=
  ⟨_, _, h, hemit, trace_claims rfl ha, fun _ hm hR => hR.act hc hm ha⟩

omit [DecidableEq Tid] [Elem T] in
/-- The mark that a load of a sequence number answers with; the mark of a settled cell is the last one. -/
theorem Tied.loads (h : Tied w c s y) (hwf : s.Wf) (k : Nat)
    (h1 : s.view t (.inl (.sequence (k % c))) ≤ i) (h2 : i ≤ s.mem.last (.sequence (k % c))) :
    ∃ x, (s.mem.stores (.sequence (k % c)) i).value = word w x ∧ x ≤ (y.queue.cell c k).sequence ∧
      (Settled c y.queue k → (y.queue.cell c k).sequence ≤ x →
        Held s.mem (s.mem.loaded (s.view t) true (.sequence (k % c)) i) (k % c)) := by
  obtain ⟨mark, hmark⟩ := h.mem.marks (k % c)
  have hlast : mark (s.mem.last (.sequence (k % c))) = (y.queue.cell c k).sequence := hmark.last
  refine ⟨mark i, hmark.words i h2, ?_, fun hs hle => ?_⟩
  · rcases Nat.lt_or_eq_of_le h2 with hlt | rfl
    · have := hmark.mono i _ hlt (Nat.le_refl _)
      omega
    · omega
  · obtain rfl : i = s.mem.last (.sequence (k % c)) := by
      rcases Nat.lt_or_eq_of_le h2 with hlt | he
      · have := hmark.mono i _ hlt (Nat.le_refl _)
        omega
      · exact he
    exact ⟨(h.mem.settled k hs).mono le_sup_right, Nat.le_of_eq (Memory.loaded_self hwf.mem h1 h2 true).symm⟩

/-- A call that reads a sequence number, which may be old. -/
theorem Tied.compares (side : Side) (arg : T) (hc : 2 ≤ c) (h : Tied w c s y) (hwf : s.Wf) (hq : Fits w c y.queue)
    {pos spins : Nat} (hpc : y.pc t = side.comparing arg pos spins) (h1 : s.view t (.inl (.sequence (pos % c))) ≤ i)
    (h2 : i ≤ s.mem.last (.sequence (pos % c))) :
    Follows w c ⟨s.mem, Function.update s.view t (s.mem.loaded (s.view t) true (.sequence (pos % c)) i),
      Function.update s.pc t
        (if Counter.dif (s.mem.stores (.sequence (pos % c)) i).value (side.mark (word w pos)) = 0 then
          side.claiming arg (word w pos) spins
        else if Counter.dif (s.mem.stores (.sequence (pos % c)) i).value (side.mark (word w pos)) < 0 then side.refused arg
        else side.starting arg (backoff spins))⟩ y m [] := by
  obtain ⟨x, hx, hle, hheld⟩ := h.loads hwf pos h1 h2
  have hpos : pos ≤ side.cursor y.queue := by
    have := h.inv.frames t
    rwa [hpc, side.comparing_ok] at this
  have hcursor := side.cursor_le h.inv.lap
  have hroom := hq.room
  have hseq := (h.inv.lap.sequence_le hq.pos pos).2
  obtain ⟨hmark, hmark'⟩ := side.mark_bounds pos
  have hdif : Counter.dif (word w x) (word w (side.mark pos)) = Counter.dif x (side.mark pos) :=
    Counter.dif_word (by omega) (by omega)
  have hspot : spot c (y.pc t) = none := by
    rw [hpc]
    cases side <;> rfl
  have hquiet := fun f (h3 : FrameOk c y.queue f) (h4 : spot c f = none)
    (h5 : ∀ k, grip c y.queue f = some k → Held s.mem (s.mem.loaded (s.view t) true (.sequence (pos % c)) i) (k % c)) =>
    h.quiet (t := t) (m := m) hspot h3 h4 h5 rfl
  rw [hx, side.mark_word, hdif]
  by_cases h0 : Counter.dif x (side.mark pos) = 0
  · obtain rfl : x = side.mark pos := by
      simp only [Counter.dif] at h0
      omega
    -- the number is that of a settled cell, or the ticket is gone
    have hready : pos = side.cursor y.queue → (y.queue.cell c pos).sequence = side.mark pos := by
      rintro rfl
      exact Nat.le_antisymm (side.next_mark h.inv.lap hc) hle
    have hframe : side.claiming arg (word w pos) spins = (side.claiming arg pos spins).map (word w) := by
      cases side <;> rfl
    rw [if_pos h0, hframe]
    refine hquiet (side.claiming arg pos spins) ?_ (by cases side <;> rfl) fun k hk => ?_
    · rw [side.claiming_ok]
      exact (Nat.lt_or_eq_of_le hpos).imp_right fun he => ⟨he, hready he⟩
    · obtain ⟨rfl, he⟩ : k = pos ∧ pos = side.cursor y.queue := by
        cases side <;>
          · simp only [Side.claiming, grip, Option.ite_none_right_eq_some, Option.some.injEq] at hk
            exact ⟨hk.2.symm, hk.1⟩
      exact hheld (he ▸ side.settled_cursor h.inv.lap hc (he ▸ hready he)) (Nat.le_of_eq (hready he))
  · rw [if_neg h0]
    split
    · cases side with
      | push => exact hquiet (.done none (.pushed false arg)) trivial rfl (gripless rfl)
      | pop => exact hquiet (.done none (.popped none)) trivial rfl (gripless rfl)
    · cases side with
      | push => exact hquiet (.loadEnqueue arg (backoff spins)) trivial rfl (gripless rfl)
      | pop => exact hquiet (.loadDequeue (backoff spins)) trivial rfl (gripless rfl)

/-- A call at its compare-exchange. -/
theorem Tied.attempts (side : Side) (arg : T) (hc : 2 ≤ c) (h : Tied w c s y) (hq : Fits w c y.queue) {pos spins : Nat}
    (hpc : y.pc t = side.claiming arg pos spins) {x : Action (Word (BitVec w)) Nat (Option T) (Frame (BitVec w) T)}
    {f' : Frame (BitVec w) T} (hx : access backoff c m (side.claiming arg (word w pos) spins) = some x)
    (hr : s.mem.Runs (s.view t) i x mem v f') :
    Follows w c ⟨mem, Function.update s.view t v, Function.update s.pc t f'⟩ y m
      (ticketEvents c s.mem i t m (side.claiming arg (word w pos) spins)) := by
  have hok := h.inv.frames t
  rw [hpc, side.claiming_ok] at hok
  have hcursor := side.cursor_le h.inv.lap
  rw [ticketEvents_claiming]
  rcases side.access_claiming hx hr with ⟨rfl, rfl, hread, rfl, hv, u, rfl⟩ | ⟨rfl, hi, hne, rfl⟩
  · rw [if_pos ⟨rfl, hread⟩]
    rw [side.shows_read h.mem (Nat.le_refl _), side.shows_cursor h.mem] at hread
    obtain rfl := (hq.eq_iff hcursor (by rcases hok with hok | hok <;> omega)).mp hread
    have ha : y.queue.Acts backoff c .go (y.pc t) (side.advance y.queue) (side.claimed arg (side.cursor y.queue)) := by
      rw [hpc]
      exact side.acts_claiming
    have hframe : side.claimed arg (word w (side.cursor y.queue)) = (side.claimed arg (side.cursor y.queue)).map (word w) := by
      cases side <;> rfl
    rw [hframe]
    refine (h.claims side hc hpc (Counter.plus_word _ 1) u hv).follows hc ha ?_
    rw [side.trace_claiming hpc]
    cases side <;> rfl
  · rw [if_neg fun hno => hne hno.1 hno.2, side.shows_read h.mem hi]
    have hframe : side.comparing arg (word w i) (backoff spins) = (side.comparing arg i (backoff spins)).map (word w) := by
      cases side <;> rfl
    have hspot : spot c (y.pc t) = none := by
      rw [hpc]
      cases side <;> rfl
    rw [hframe]
    refine h.quiet hspot ?_ (by cases side <;> rfl) ?_ rfl
    · rw [side.comparing_ok]
      exact hi.trans (Nat.le_of_eq (side.shows_cursor h.mem))
    · cases side <;> exact gripless rfl

omit [DecidableEq Tid] [Elem T] in
theorem place_cells (q : NatQueue T) (k : Nat) (x : Option T) :
    (q.place c k x).cells = Function.update q.cells (k % c) ⟨(q.cells (k % c)).sequence, x⟩ := rfl

omit [DecidableEq Tid] [Elem T] in
theorem store_cells (q : NatQueue T) (k seq : Nat) :
    (q.store c k seq).cells = Function.update q.cells (k % c) ⟨seq, (q.cells (k % c)).storage⟩ := rfl

/-- The store that gives a cell up. -/
theorem Tied.gives (side : Side) (hc : 2 ≤ c) (h : Tied w c s y) (hq : Fits w c y.queue) {arg : T} {pos : Nat}
    (hpc : y.pc t = side.giving arg pos) {x : Action (Word (BitVec w)) Nat (Option T) (Frame (BitVec w) T)}
    {f' : Frame (BitVec w) T} (hx : access backoff c m (side.giving arg (word w pos)) = some x)
    (hr : s.mem.Runs (s.view t) i x mem v f') :
    Follows w c ⟨mem, Function.update s.view t v, Function.update s.pc t f'⟩ y m
      (ticketEvents c s.mem i t m (side.giving arg (word w pos))) := by
  obtain ⟨rfl, rfl⟩ : m = .go ∧ x = .store true (.sequence (Counter.slot c (word w pos))) (side.leaves c (word w pos))
      (.done (some (word w pos)) (side.reply arg)) := by
    cases side <;> cases m <;> cases hx <;> exact ⟨rfl, rfl⟩
  cases hr with
  | store =>
    have hok := h.inv.frames t
    obtain ⟨j, -, hspot, hmod⟩ := side.spot_claimed (c := c) arg pos
    have ha : y.queue.Acts backoff c .go (y.pc t) (y.queue.store c pos (side.leaves c pos)) (.done (some pos) (side.reply arg)) := by
      rw [hpc]
      cases side with
      | push => exact .publish
      | pop => exact .release
    rw [← hpc] at hspot
    rw [hpc] at hok
    have hnew := h.stores (q := y.queue.store c pos (side.leaves c pos)) (f := .done (some pos) (side.reply arg)) hc hspot rfl rfl rfl
      (by rw [hmod]; exact store_cells y.queue pos (side.leaves c pos)) (by rw [hmod]; exact side.giving_ok hc hok)
      (side.leaves_word pos) (h.inv.act hc ha) rfl
    rw [Counter.slot_word hq.pow, ← hmod]
    refine hnew.follows hc ha ?_
    cases side <;>
      · simp only [trace, hpc, Side.giving]
        rfl

/-- An element operation that throws leaves the slot as it was. -/
theorem Tied.throws (side : Side) (arg : T) (hc : 2 ≤ c) (h : Tied w c s y) (hq : Fits w c y.queue) {pos : Nat}
    (hpc : y.pc t = side.claimed arg pos) {x : Action (Word (BitVec w)) Nat (Option T) (Frame (BitVec w) T)}
    {f' : Frame (BitVec w) T} (hx : access backoff c .throws (side.claimed arg (word w pos)) = some x)
    (hr : s.mem.Runs (s.view t) i x mem v f') :
    Follows w c ⟨mem, Function.update s.view t v, Function.update s.pc t f'⟩ y .throws [] := by
  obtain rfl : x = .access (Counter.slot c (word w pos)) id fun _ => .done (some (word w pos)) .threw := by
    cases side <;> cases hx <;> rfl
  cases hr with
  | access =>
    obtain ⟨j, hspot, -, hmod⟩ := side.spot_claimed (c := c) arg pos
    rw [← hpc] at hspot
    have ha : y.queue.Acts backoff c .throws (y.pc t) y.queue (.done (some pos) .threw) := by
      rw [hpc]
      cases side with
      | push => exact .constructThrows
      | pop => exact .moveOutThrows
    have hsame : y.queue.cells = Function.update y.queue.cells (j % c) ⟨(y.queue.cells (j % c)).sequence, s.mem.plain (j % c)⟩ := by
      rw [h.mem.plain (j % c)]
      exact (Function.update_eq_self ..).symm
    have hnew := h.touches (f := .done (some pos) .threw) hc hspot rfl rfl rfl hsame (h.inv.act hc ha) (gripless rfl)
    rw [Counter.slot_word hq.pow, ← hmod]
    exact hnew.follows hc ha rfl

theorem Tied.act (hc : 2 ≤ c) (h : Tied w c s y) (hwf : s.Wf) (hq : Fits w c y.queue)
    {x : Action (Word (BitVec w)) Nat (Option T) (Frame (BitVec w) T)} {f' : Frame (BitVec w) T}
    (hx : access backoff c m (s.pc t) = some x) (hr : s.mem.Runs (s.view t) i x mem v f') :
    Follows w c ⟨mem, Function.update s.view t v, Function.update s.pc t f'⟩ y m (ticketEvents c s.mem i t m (s.pc t)) := by
  have hslot : ∀ k, Counter.slot c (word w k) = k % c := Counter.slot_word hq.pow
  have hlap : ∀ k, Counter.slot c (word w k) = (k + c) % c := fun k => by rw [hslot, Nat.add_mod_right]
  have hplain : ∀ k, s.mem.plain (k % c) = (y.queue.cell c k).storage := fun k => h.mem.plain _
  have hact := fun {q f} (ha : y.queue.Acts backoff c m (y.pc t) q f) => h.inv.act hc ha
  have hfollows := fun {q f s' emitted} (h' : Tied w c s' ⟨q, Function.update y.pc t f⟩)
    (ha : y.queue.Acts backoff c m (y.pc t) q f)
    (hemit : emitted = (trace c y (.move t m)).map (TicketEvent.map (word w))) => h'.follows hc ha hemit
  have hquiet := fun f (hold : spot c (y.pc t) = none) (h1 : FrameOk c y.queue f) (h2 : spot c f = none)
    (h3 : ∀ k, grip c y.queue f = some k → Held s.mem v (k % c)) => h.quiet (t := t) (m := m) hold h1 h2 h3 rfl
  rw [h.pc] at hx ⊢
  generalize hpc : y.pc t = g at hx hact hfollows hquiet ⊢
  cases g with
  | idle => cases m <;> cases hx
  | checkClosed arg =>
    cases m with
    | go =>
      cases hx
      cases hr with
      | load h1 h2 =>
        show Follows w c ⟨_, _, Function.update s.pc t (if (s.mem.stores .closed i).value = true then _ else _)⟩ y .go []
        split
        · exact hquiet (.done none (.pushed false arg)) rfl trivial rfl (gripless rfl)
        · exact hquiet (.loadEnqueue arg 0) rfl trivial rfl (gripless rfl)
    | _ => cases hx
  | loadEnqueue arg spins =>
    cases m with
    | go =>
      cases hx
      cases hr with
      | load h1 h2 =>
        rw [h.mem.enqueued i h2]
        exact hquiet (.loadSequence arg i spins) rfl (h2.trans (Nat.le_of_eq h.mem.enqueue)) rfl (gripless rfl)
    | _ => cases hx
  | loadSequence arg pos spins =>
    cases m with
    | go =>
      cases hx
      cases hr with
      | load h1 h2 =>
        rw [hslot] at h1 h2 ⊢
        exact h.compares .push arg hc hwf hq hpc h1 h2
    | _ => cases hx
  | claim arg pos spins => exact h.attempts .push arg hc hq hpc hx hr
  | construct arg pos =>
    have hspot : spot c (y.pc t) = some pos := by rw [hpc]; rfl
    cases m with
    | go =>
      cases hx
      cases hr with
      | access =>
        rw [hslot]
        have hnew := h.touches (q := y.queue.place c pos (some arg)) (f := .publish (Elem.moved arg) pos) hc hspot rfl rfl rfl
          (place_cells ..) (hact .construct) fun k hk => by cases hk; rfl
        exact hfollows hnew .construct (by simp only [trace, hpc]; rfl)
    | throws => exact h.throws .push arg hc hq hpc hx hr
    | spurious => cases hx
  | publish arg pos => exact h.gives .push hc hq hpc hx hr
  | loadDequeue spins =>
    cases m with
    | go =>
      cases hx
      cases hr with
      | load h1 h2 =>
        rw [h.mem.dequeued i h2]
        exact hquiet (.loadSequencePop i spins) rfl (h2.trans (Nat.le_of_eq h.mem.dequeue)) rfl (gripless rfl)
    | _ => cases hx
  | loadSequencePop pos spins =>
    cases m with
    | go =>
      cases hx
      cases hr with
      | load h1 h2 =>
        rw [hslot] at h1 h2 ⊢
        exact h.compares .pop default hc hwf hq hpc h1 h2
    | _ => cases hx
  | claimPop pos spins => exact h.attempts .pop default hc hq hpc hx hr
  | moveOut pos =>
    have hspot : spot c (y.pc t) = some (pos + c) := by rw [hpc]; rfl
    cases m with
    | go =>
      cases hx
      cases hr with
      | access =>
        have hvalue : s.mem.plain ((pos + c) % c) = (y.queue.cell c pos).storage := by rw [Nat.add_mod_right, hplain]
        have hemit : ticketEvents c s.mem i t .go (Frame.map (word w) (.moveOut pos)) =
            (trace c y (.move t .go)).map (TicketEvent.map (word w)) := by
          simp only [trace, hpc, ticketEvents, Frame.map]
          rw [hslot, hplain]
          rfl
        rw [hemit, hlap, hvalue]
        have hnew := h.touches (q := y.queue.place c pos (some (Elem.moved ((y.queue.cell c pos).storage.getD default))))
          (f := .destroy pos ((y.queue.cell c pos).storage.getD default)) hc hspot rfl rfl rfl
          (by rw [Nat.add_mod_right]; rfl) (hact (.moveOut rfl)) fun k hk => by cases hk; rfl
        exact hfollows hnew (.moveOut rfl) rfl
    | throws => exact h.throws .pop default hc hq hpc hx hr
    | spurious => cases hx
  | destroy pos out =>
    have hspot : spot c (y.pc t) = some (pos + c) := by rw [hpc]; rfl
    cases m with
    | go =>
      cases hx
      cases hr with
      | access =>
        rw [hlap]
        have hnew := h.touches (q := y.queue.place c pos none) (f := .release pos out) hc hspot rfl rfl rfl
          (by rw [Nat.add_mod_right]; rfl) (hact .destroy) fun k hk => by cases hk; rfl
        exact hfollows hnew .destroy (by simp only [trace, hpc]; rfl)
    | _ => cases hx
  | release pos out => exact h.gives .pop hc hq hpc hx hr
  | exchangeClosed =>
    cases m with
    | go =>
      cases hx
      cases hr with
      | wrote h1 hv hi =>
        cases hv
        rw [h.mem.closed]
        exact hfollows (h.closes true _) .exchangeClosed (by simp only [trace, hpc]; rfl)
      | failed _ _ hv => cases hv
    | _ => cases hx
  | loadClosed =>
    cases m with
    | go =>
      cases hx
      cases hr with
      | load h1 h2 => exact hquiet (.done none (.isClosed _)) rfl trivial rfl (gripless rfl)
    | _ => cases hx
  | done k r => cases m <;> cases hx

/-! ## Runs -/

variable {throwing : Bool} {log : List (TicketEvent Tid (BitVec w) T)}

theorem Tied.env_step (h : Tied w c s y) {e : Env T} {f' : Frame (BitVec w) T} (he : callOrReturn e (s.pc t) = some f') :
    Follows w c { s with pc := Function.update s.pc t f' } y .go [] := by
  have hview : ∀ f, spot c (y.pc t) = none → FrameOk c y.queue f → spot c f = none → (∀ k, grip c y.queue f ≠ some k) →
      f' = f.map (word w) → Follows w c { s with pc := Function.update s.pc t f' } y .go [] := by
    rintro f h1 h2 h3 h4 rfl
    have hq := h.quiet (t := t) (m := .go) (v := s.view t) h1 h2 h3 (fun k hk => absurd hk (h4 k)) rfl
    rwa [Function.update_eq_self] at hq
  rw [h.pc] at he
  generalize y.pc t = g at he hview
  cases e with
  | enter op =>
    cases g <;> cases he
    exact hview (AtomicQueue.enter op) rfl (by cases op <;> trivial) (by cases op <;> rfl) (by cases op <;> exact gripless rfl)
      (by cases op <;> rfl)
  | leave =>
    cases g <;> cases he
    exact hview .idle rfl trivial rfl (gripless rfl) rfl

def Known (w c : Nat) (throwing : Bool) (s : Weak Tid (BitVec w) T) (log : List (TicketEvent Tid (BitVec w) T)) : Prop :=
  ∃ y events, Tied w c s y ∧ log = events.map (TicketEvent.map (word w)) ∧
    y.queue.enqueuePos = (pushClaims events).length ∧ (throwing = false → Recorded c y events)

theorem known_reachable (hc : 2 ≤ c) (hpow : ∃ j, j < w ∧ c = 2 ^ j)
    (hr : ((program (N := BitVec w) Tid T backoff c throwing).viewed.logged (trail c)).Reachable (s, log))
    (hlt : (pushClaims log).length + c < 2 ^ (w - 1)) : Known w c throwing s log := by
  refine hr.invariant (I := fun x => (pushClaims x.2).length + c < 2 ^ (w - 1) → Known w c throwing x.1 x.2) ?_ ?_ hlt
  · intro _
    refine ⟨⟨AtomicQueue.new Nat T, fun _ => .idle⟩, [], ⟨Inv.start, fun _ => rfl, ?_, fun _ => gripless rfl⟩, rfl, rfl,
      fun _ => ⟨Inv.start, fun k => .unclaimed (Nat.zero_le k), rfl, rfl⟩⟩
    refine ⟨fun _ => rfl, rfl, fun j hj => ?_, rfl, fun j hj => ?_, rfl,
      fun i => ⟨fun _ => i, rfl, fun n k hnk hk => ?_, fun _ _ => rfl⟩, fun _ _ => Nat.zero_le _⟩
    · rw [Nat.le_zero.mp hj]
      rfl
    · rw [Nat.le_zero.mp hj]
      rfl
    · exact absurd (Nat.lt_of_lt_of_le hnk hk) (Nat.not_lt_zero n)
  · rintro ⟨s, log⟩ a ⟨s', log'⟩ hreach ih hs hlt
    obtain ⟨h1, h2⟩ := Machine.logged_step.mp hs
    have hwf := Program.Viewed.wf_reachable (Machine.logged_reachable hreach)
    simp only at h1 h2 hlt hwf
    rw [h2, pushClaims_append, List.length_append] at hlt
    obtain ⟨y, events, htied, hlog, hcount, hR⟩ := ih (by simp only; omega)
    have hlog : log = events.map (TicketEvent.map (word w)) := hlog
    have hroom : y.queue.enqueuePos + c < 2 ^ (w - 1) := by
      rw [hcount]
      rw [hlog, pushClaims_map, List.length_map] at hlt
      omega
    have hfollows : ∃ m, (m = .throws → throwing = true) ∧ Follows w c s' y m (trail c s a) := by
      cases Program.step_spec h1 with
      | env he => exact ⟨.go, by simp, htied.env_step he⟩
      | @move t m i x mem v f hact hrun =>
        simp only [program] at hact
        split at hact
        · cases hact
        · rename_i hm
          refine ⟨m, fun he => ?_, htied.act hc hwf (htied.inv.fits hpow hroom) hact hrun⟩
          cases ht : throwing with
          | true => rfl
          | false => exact absurd ⟨he, ht⟩ hm
    obtain ⟨m, hm, y', new, htied', hemit, hcount', hrec⟩ := hfollows
    refine ⟨y', events ++ new, htied', ?_, ?_, fun ht => hrec _ (fun he => ?_) (hR ht)⟩
    · show log' = _
      rw [h2, hlog, hemit, List.map_append]
    · rw [hcount', hcount, pushClaims_append, List.length_append]
    · rw [hm he] at ht
      cases ht

omit [DecidableEq Tid] in
/-- No access of a thread races: it knows the slot it touches, and it has seen the last store of a number it stores. -/
theorem Tied.raceFree (h : Tied w c s y) (hpow : ∃ j, j < w ∧ c = 2 ^ j) :
    s.RaceFree (program (N := BitVec w) Tid T backoff c throwing) := by
  intro t m x hact
  have hx : access backoff c m (s.pc t) = some x := by
    simp only [program] at hact
    split at hact
    · cases hact
    · exact hact
  have hgrip := h.grips t
  have hslot : ∀ k, Counter.slot c (word w k) = k % c := Counter.slot_word hpow
  have hlap : ∀ k, Counter.slot c (word w k) = (k + c) % c := fun k => by rw [hslot, Nat.add_mod_right]
  rw [h.pc] at hx
  cases hpc : y.pc t with
  | construct arg pos =>
    rw [hpc] at hx hgrip
    have hheld := hgrip pos rfl
    rw [← hslot] at hheld
    cases m <;> cases hx <;> exact hheld.knows
  | publish arg pos =>
    rw [hpc] at hx hgrip
    have hheld := hgrip pos rfl
    rw [← hslot] at hheld
    cases m <;> cases hx
    exact hheld.seen
  | moveOut pos =>
    rw [hpc] at hx hgrip
    have hheld := hgrip (pos + c) rfl
    rw [← hlap] at hheld
    cases m <;> cases hx <;> exact hheld.knows
  | destroy pos out =>
    rw [hpc] at hx hgrip
    have hheld := hgrip (pos + c) rfl
    rw [← hlap] at hheld
    cases m <;> cases hx
    exact hheld.knows
  | release pos out =>
    rw [hpc] at hx hgrip
    have hheld := hgrip (pos + c) rfl
    rw [← hlap] at hheld
    cases m <;> cases hx
    exact hheld.seen
  | _ =>
    rw [hpc] at hx
    cases m <;> cases hx <;> trivial

omit [DecidableEq Tid] [Elem T] in
theorem Tied.gathers (h : Tied w c s y) : gather s.latest = y.map (word w) := by
  have hcells : ∀ i, (⟨(s.mem.stores (.sequence i) (s.mem.last (.sequence i))).value, s.mem.plain i⟩ : Cell (BitVec w) T) =
      (y.queue.cells i).map (word w) := by
    intro i
    obtain ⟨mark, hmark⟩ := h.mem.marks i
    rw [hmark.words _ (Nat.le_refl _), hmark.last, h.mem.plain]
    rfl
  have henqueue := h.mem.enqueued _ (Nat.le_refl _)
  have hdequeue := h.mem.dequeued _ (Nat.le_refl _)
  have hqueue : (gather s.latest).queue = y.queue.map (word w) := by
    show AtomicQueue.mk _ (s.mem.stores .enqueue (s.mem.last .enqueue)).value (s.mem.stores .dequeue (s.mem.last .dequeue)).value
      (s.mem.stores .closed (s.mem.last .closed)).value = _
    rw [henqueue, hdequeue, h.mem.enqueue, h.mem.dequeue, h.mem.closed]
    exact congrArg (fun cells => AtomicQueue.mk cells _ _ _) (funext hcells)
  have hpcs : (gather s.latest).pc = (y.map (word w)).pc := funext h.pc
  exact congrArg₂ State.mk hqueue hpcs

end

section
variable {Tid T : Type} {c : Nat}

structure ExactlyOnce [DecidableEq Tid] (c : Nat) (q : AtomicQueue (BitVec 64) T)
    (log : List (TicketEvent Tid (BitVec 64) T)) : Prop where
  le : q.dequeuePos.toNat ≤ q.enqueuePos.toNat
  bound : q.enqueuePos.toNat ≤ q.dequeuePos.toNat + c
  pushes : (pushClaims log).map BitVec.toNat = List.range q.enqueuePos.toNat
  pops : (popClaims log).map BitVec.toNat = List.range q.dequeuePos.toNat
  lives : ∀ e ∈ log, ∃ u t v, history log e.ticket <+: lifecycle u t e.ticket v
  intact : ∀ u t k v, .constructed u k v ∈ log → .published t k ∈ log → q.dequeuePos.toNat ≤ k.toNat →
    (q.cell c k).storage = some v

theorem Recorded.exactlyOnce [DecidableEq Tid] [Elem T] {y : State Tid Nat T} {events : List (TicketEvent Tid Nat T)}
    (hR : Recorded c y events) (hpow : ∃ j, j < 64 ∧ c = 2 ^ j) (hroom : y.queue.enqueuePos + c < 2 ^ 63) :
    ExactlyOnce c (y.queue.map (word 64)) (events.map (TicketEvent.map (word 64))) := by
  have hle := hR.inv.lap.le
  have hE : (y.queue.map (word 64)).enqueuePos.toNat = y.queue.enqueuePos := word_toNat (by omega)
  have hD : (y.queue.map (word 64)).dequeuePos.toNat = y.queue.dequeuePos := word_toNat (by omega)
  refine ⟨?_, ?_, ?_, ?_, fun e hmem => ?_, fun u t k v hv hp hk => ?_⟩
  · rw [hE, hD]
    exact hle
  · rw [hE, hD]
    exact hR.inv.lap.bound
  · rw [hE, pushClaims_map, hR.pushes]
    exact range_words (by omega)
  · rw [hD, popClaims_map, hR.pops]
    exact range_words (by omega)
  · obtain ⟨e, he, rfl⟩ := List.mem_map.mp hmem
    have hlt := hR.ticket_lt he
    rw [ticket_map, hR.history_map (by omega) (by omega)]
    rcases (hR.life e.ticket).begins with hnil | ⟨u, t, v, hpre⟩
    · exact absurd (mem_history.mpr ⟨he, rfl⟩) (List.eq_nil_iff_forall_not_mem.mp hnil e)
    · exact ⟨u, t, v, hpre.map (TicketEvent.map (word 64))⟩
  · -- the words of the two events are those of two events of one ticket
    obtain ⟨e, he, hev⟩ := List.mem_map.mp hv
    obtain ⟨e', he', hep⟩ := List.mem_map.mp hp
    cases e with
    | constructed u' k' v' =>
      cases e' with
      | published t' j =>
        simp only [TicketEvent.map, TicketEvent.constructed.injEq, TicketEvent.published.injEq] at hev hep
        obtain ⟨rfl, rfl, rfl⟩ := hev
        have h1 := hR.ticket_lt he
        have h2 := hR.ticket_lt he'
        simp only [TicketEvent.ticket] at h1 h2
        obtain rfl : j = k' := Counter.word_inj (by omega) (by omega) hep.2
        rw [hD, word_toNat (by omega)] at hk
        rw [(hR.inv.fits (w := 64) hpow (by omega)).cell j]
        exact (hR.life j).intact hR.inv hk (mem_history.mpr ⟨he', rfl⟩) (mem_history.mpr ⟨he, rfl⟩)
      | _ => simp [TicketEvent.map] at hep
    | _ => simp [TicketEvent.map] at hev

end

end Atomic

open Atomic

variable {Tid T : Type} [DecidableEq Tid] [Elem T] {fuel : Nat} {requested capacity : BitVec 64}

/-- **The memory orders of the atomic queues are enough.** On a memory where a
load may answer with any store its thread has not seen past, no access of a
thread races while fewer than half of the words are used as tickets, and unless
elements throw every ticket carries one value from one push to one pop. -/
theorem atomic_release_acquire (version : AtomicVersion) (hcap : normalizeCapacity fuel requested = some capacity)
    (throwing : Bool) {s : Weak Tid (BitVec 64) T} {log : List (TicketEvent Tid (BitVec 64) T)}
    (hr : ((version.program Tid T capacity throwing).viewed.logged (trail capacity.toNat)).Reachable (s, log))
    (hlt : (pushClaims log).length < 2 ^ 63 - capacity.toNat) :
    s.RaceFree (version.program Tid T capacity throwing) ∧
    (throwing = false → ExactlyOnce capacity.toNat (gather s.latest).queue log) := by
  obtain ⟨hc, hpow⟩ := AtomicVersion.capacity_spec hcap
  obtain ⟨y, events, htied, rfl, hcount, hR⟩ := known_reachable hc hpow hr (by omega)
  refine ⟨htied.raceFree hpow, fun ht => ?_⟩
  rw [pushClaims_map, List.length_map] at hlt
  rw [htied.gathers]
  exact (hR ht).exactlyOnce hpow (by omega)

def staleSequence : List (Program.Label Bool (Env Nat) (Move × Nat)) :=
  [.env true (.enter (.emplace 7)), .move true (.go, 0), .move true (.go, 0), .move true (.go, 0), .move true (.go, 0),
    .move true (.go, 0), .move true (.go, 0), .env true .leave,
    .env false (.enter .tryPop), .move false (.go, 0), .move false (.go, 0), .env false .leave,
    .env false (.enter .tryPop), .move false (.go, 0), .move false (.go, 1), .move false (.go, 0), .move false (.go, 0)]

theorem atomic_release_acquire_stale :
    ∃ x, ((AtomicVersion.V3.program Bool Nat 2#64 false).viewed.logged (trail 2)).exec staleSequence = some x ∧
      popClaims x.2 = [0] ∧ x.1.RaceFree (AtomicVersion.V3.program Bool Nat 2#64 false) ∧
      ExactlyOnce 2 (gather x.1.latest).queue x.2 := by
  have hrun : (((AtomicVersion.V3.program Bool Nat 2#64 false).viewed.logged (trail 2)).exec staleSequence).map
      (fun x => ((pushClaims x.2).length, popClaims x.2)) = some (1, [0]) := by decide
  obtain ⟨x, hx, hlog⟩ := Option.map_eq_some_iff.mp hrun
  have hpush : (pushClaims x.2).length = 1 := congrArg Prod.fst hlog
  have hcap : normalizeCapacity 3 2#64 = some 2#64 := by decide
  obtain ⟨hfree, honce⟩ := atomic_release_acquire .V3 hcap false (Machine.exec_reachable _ hx) (by rw [hpush]; decide)
  exact ⟨x, hx, congrArg Prod.snd hlog, hfree, honce rfl⟩

end Yutil
