import Yutil.DrainProtocol

/-!
# The drain is complete

After all producers are done no push is under way, so a `try_pop` that fails
then has seen an empty queue, and the queue stays empty.
-/

namespace Yutil

open Interleave Atomic

namespace Drain

variable {P C T : Type} [DecidableEq P] [DecidableEq C] [Fintype P] [Elem T] {version : AtomicVersion}
  {capacity : BitVec 64} {s s' : State P C T} {a : Label P C}

/-! ## The queue of a reachable state -/

theorem queue_step (h : step version capacity s a = some s') :
    s'.queue = s.queue ∨ ∃ b, (version.recorded (P ⊕ C) T capacity).step s.queue b = some s'.queue := by
  cases step_spec h with
  | move hq | push _ hq | pushed _ hq | pop _ hq | took _ hq | failed _ hq => exact .inr ⟨_, hq⟩
  | make | finish | load => exact .inl rfl

theorem queue_reachable (h : (machine version capacity items).Reachable s) :
    (version.recorded (P ⊕ C) T capacity).Reachable s.queue := by
  refine h.invariant (I := fun s => (version.recorded (P ⊕ C) T capacity).Reachable s.queue) .start ?_
  intro s a s' _ hI hs
  rcases queue_step hs with he | ⟨b, hb⟩
  · rw [he]; exact hI
  · exact .step hI hb

theorem claims_le (h : step version capacity s a = some s') :
    (pushClaims s.queue.2).length ≤ (pushClaims s'.queue.2).length := by
  rcases queue_step h with he | ⟨b, hb⟩
  · rw [he]
  · have hlog := (Machine.logged_step.mp hb).2
    rw [hlog]
    exact ((List.prefix_append ..).sublist.filterMap _).length_le

/-! ## The last answer -/

section
variable {Tid : Type} [DecidableEq Tid] {x x' : Atomic.State Tid (BitVec 64) T × List (TicketEvent Tid (BitVec 64) T)}
  {fuel : Nat} {requested : BitVec 64} (hcap : normalizeCapacity fuel requested = some capacity)
  (hr : (version.recorded Tid T capacity).Reachable x) (hlt : (pushClaims x.2).length < 2 ^ 63 - capacity.toNat)
  (hno : ∀ u, pushTicket (x.1.pc u) = none ∧ ∀ arg pos spins, x.1.pc u ≠ .claim arg pos spins)

include hcap hr hlt hno

theorem stays_empty {b : Atomic.Label Tid T} (hs : (version.recorded Tid T capacity).step x b = some x')
    (he : x.1.queue.enqueuePos = x.1.queue.dequeuePos) : x'.1.queue.enqueuePos = x'.1.queue.dequeuePos := by
  obtain ⟨y, y', hR, hroom, hy, rfl, rfl⟩ := AtomicVersion.reads_step hcap hr hlt hs
  have hle := hR.inv.lap.le
  have he := Counter.word_inj (w := 64) (by omega) (by omega) he
  refine congrArg (word 64) (hR.inv.empty_stays (AtomicVersion.capacity_spec hcap).1 (Machine.logged_step.mp hy).1 he ?_)
  intro u arg pos spins hpc
  exact (hno u).2 arg (word 64 pos) spins (congrArg (Frame.map (word 64)) hpc)

theorem false_empty {t : Tid} {m : Move} (hs : (version.recorded Tid T capacity).step x (.move t m) = some x')
    (hd : x'.1.pc t = .done none (.popped none)) : x'.1.queue.enqueuePos = x'.1.queue.dequeuePos := by
  apply stays_empty hcap hr hlt hno hs
  obtain ⟨q, f, -, ha, rfl⟩ := queue_move hs
  have hn : x.1.pc t ≠ .done none (.popped none) := by
    intro hn
    rw [hn] at ha
    cases ha
  obtain ⟨y, y', hR, hroom, hy, rfl, hy'⟩ := AtomicVersion.reads_step hcap hr hlt hs
  rw [hy'] at hd
  have hc := (AtomicVersion.capacity_spec hcap).1
  have hy : Atomic.step version.backoff capacity.toNat false y.1 (.move t m) = some y'.1 := (Machine.logged_step.mp hy).1
  rcases hR.says_empty (by omega) hy (fun hn' => hn ((map_done _).mpr hn')) ((map_done _).mp hd) with he | ⟨u, hu⟩
  · exact congrArg (word 64) he
  · have hnone := (hno u).1
    have hmap : pushTicket ((y.1.pc u).map (word 64)) = none := hnone
    rw [pushTicket_map, hu] at hmap
    cases hmap

end

variable [Fintype C] {items : P → List T}

def State.Told (s : State P C T) (c : C) : Prop :=
  s.phase c = .exited ∨ s.phase c = .last ∧ ∃ k, s.queue.1.pc (.inr c) = .done k (.popped none)

theorem told_step (hI : Inv items s) (hs : step version capacity s a = some s') {c : C} (h : s'.Told c) :
    s.Told c ∨ s.phase c = .last ∧ s'.queue.1.pc (.inr c) = .done none (.popped none) ∧
      ∃ m, (version.recorded (P ⊕ C) T capacity).step s.queue (.move (.inr c) m) = some s'.queue := by
  -- a step of another thread, or one that leaves the phase and is no answer
  have same : s'.phase c = s.phase c → s'.queue.1.pc (.inr c) = s.queue.1.pc (.inr c) → s.Told c := by
    intro h1 h2
    rw [State.Told, h1, h2] at h
    exact h
  have silent : s'.phase c = s.phase c → (∀ k, s'.queue.1.pc (.inr c) ≠ .done k (.popped none)) → s.Told c := by
    intro h1 h2
    rcases h with h | ⟨-, k, hk⟩
    · exact .inl (h1.symm.trans h)
    · exact absurd hk (h2 k)
  cases step_spec hs with
  | @move t m q hq =>
    obtain ⟨q', f, -, ha, rfl⟩ := queue_move hq
    by_cases ht : .inr c = t
    · subst ht
      rcases h with h | ⟨h, k, hk⟩
      · exact .inl (.inl h)
      · refine .inr ⟨h, ?_, m, hq⟩
        have hf : f = .done k (.popped none) := by simpa using hk
        have hnone : k = none := by
          rw [hf] at ha
          generalize s.queue.1.pc (.inr c) = g at ha
          cases ha
          rfl
        rw [hk, hnone]
    · exact .inl (same rfl (Function.update_of_ne ht ..))
  | make | finish => exact .inl (same rfl rfl)
  | @push p x q hp hq =>
    obtain ⟨-, rfl⟩ := queue_call hq
    exact .inl (same rfl rfl)
  | @pushed p k ok arg q hpc hq =>
    obtain rfl := queue_ret hq
    exact .inl (same rfl rfl)
  | @pop c' q hph hq =>
    obtain ⟨-, rfl⟩ := queue_call hq
    by_cases hc : c = c'
    · subst hc
      refine .inl (silent rfl fun k hk => ?_)
      simp [AtomicQueue.enter] at hk
    · exact .inl (same rfl (Function.update_of_ne (by simpa using hc) ..))
  | @took c' k value q hpc hq =>
    obtain rfl := queue_ret hq
    by_cases hc : c = c'
    · subst hc
      rcases h with h | ⟨h, -⟩ <;> simp at h
    · exact .inl (same (Function.update_of_ne hc ..) (Function.update_of_ne (by simpa using hc) ..))
  | @failed c' k q hpc hq =>
    obtain rfl := queue_ret hq
    by_cases hc : c = c'
    · subst hc
      refine .inl (.inr ⟨?_, k, hpc⟩)
      rcases h with h | ⟨h, -⟩ <;> by_contra hl <;> simp [hl] at h
    · exact .inl (same (Function.update_of_ne hc ..) (Function.update_of_ne (by simpa using hc) ..))
  | @load c' hph =>
    by_cases hc : c = c'
    · subst hc
      have hidle := hI.idle c (by rw [hph]; intro he; cases he) (by rw [hph]; intro he; cases he)
      rcases h with h | ⟨-, k, hk⟩
      · simp only [Function.update_self] at h
        split at h <;> cases h
      · cases hidle.symm.trans hk
    · exact .inl (same (Function.update_of_ne hc ..) rfl)

/-- The queue is empty from the last `false` of a consumer on. -/
def Drained (s : State P C T) : Prop := ∀ c, s.Told c → s.queue.1.queue.enqueuePos = s.queue.1.queue.dequeuePos

section
variable {fuel : Nat} {requested : BitVec 64} (hcap : normalizeCapacity fuel requested = some capacity)

include hcap

theorem Drained.step (h : Drained s) (hI : Inv items s) (hr : (version.recorded (P ⊕ C) T capacity).Reachable s.queue)
    (hlt : (pushClaims s.queue.2).length < 2 ^ 63 - capacity.toNat) (hs : Drain.step version capacity s a = some s') :
    Drained s' := by
  intro c hc
  rcases told_step hI hs hc with hc | ⟨hph, hd, m, hq⟩
  · have hno := hI.no_push (hI.exiting c (hc.elim .inr fun hc => .inl hc.1))
    rcases queue_step hs with hq | ⟨b, hq⟩
    · rw [hq]; exact h c hc
    · exact stays_empty hcap hr hlt hno hq (h c hc)
  · exact false_empty hcap hr hlt (hI.no_push (hI.exiting c (.inl hph))) hq hd

theorem drained_reachable (h : (machine version capacity items).Reachable s)
    (hlt : (pushClaims s.queue.2).length < 2 ^ 63 - capacity.toNat) : Drained s := by
  induction h with
  | start =>
    intro c hc
    rcases hc with hc | ⟨hc, -⟩ <;> cases hc
  | @step s s' a hr hs ih =>
    have hlt' := Nat.lt_of_le_of_lt (claims_le hs) hlt
    exact (ih hlt').step hcap (inv_reachable hr) (queue_reachable hr) hlt' hs

end

/-! ## What is taken is handed over -/

section
variable {Tid : Type}

omit [Elem T] in
theorem filterMap_histories {N : Type} [DecidableEq N] (g : TicketEvent Tid N T → Option T) {tickets : Finset N}
    {log : List (TicketEvent Tid N T)} (h : ∀ e ∈ log, e.ticket ∈ tickets) :
    (log.filterMap g : Multiset T) = ∑ k ∈ tickets, ((history log k).filterMap g : Multiset T) := by
  induction log with
  | nil => exact (Finset.sum_eq_zero fun k _ => rfl).symm
  | cons e log ih =>
    have hcons : ∀ k, ((history (e :: log) k).filterMap g : Multiset T) =
        (if k = e.ticket then ([e].filterMap g : Multiset T) else 0) + (history log k).filterMap g := by
      intro k
      by_cases hk : k = e.ticket
      · subst hk
        simp only [history, List.filter_cons, decide_true, if_true]
        rw [Multiset.coe_add, ← List.filterMap_append]
        rfl
      · simp [history, Ne.symm hk, hk]
    simp only [hcons, Finset.sum_add_distrib, Finset.sum_ite_eq', h e (List.mem_cons_self ..), if_true]
    rw [← ih fun e he => h e (List.mem_cons_of_mem _ he), Multiset.coe_add, ← List.filterMap_append]
    rfl

variable {c : Nat} {x : Atomic.State Tid Nat T} {log : List (TicketEvent Tid Nat T)}

/-- In an empty queue at which no pop is, every item has been released. -/
theorem handed_over (h : Recorded c x log) (he : x.queue.enqueuePos = x.queue.dequeuePos)
    (hno : ∀ u, popTicket (x.pc u) = none) : constructed log = released log := by
  have hlt : ∀ e ∈ log, e.ticket ∈ Finset.range x.queue.enqueuePos := fun e he => Finset.mem_range.mpr (h.ticket_lt he)
  rw [constructed, released, filterMap_histories _ hlt, filterMap_histories _ hlt]
  apply Finset.sum_congr rfl
  intro k hk
  have hk := Finset.mem_range.mp hk
  obtain ⟨_, t, _, hp, -⟩ | ⟨_, t, _, hp, -⟩ | ⟨_, _, _, -, -, hl⟩ := (h.life k).popped h.inv (by omega)
  · have := hno t
    rw [hp] at this
    cases this
  · have := Life.holds_ticket hp
    rw [hno t] at this
    cases this
  · rw [hl]
    rfl

omit [Elem T] in
theorem constructed_map {N M : Type} (g : N → M) (log : List (TicketEvent Tid N T)) :
    constructed (log.map (TicketEvent.map g)) = constructed log := by
  rw [constructed, constructed, List.filterMap_map]
  congr 2
  funext e
  cases e <;> rfl

omit [Elem T] in
theorem released_map {N M : Type} (g : N → M) (log : List (TicketEvent Tid N T)) :
    released (log.map (TicketEvent.map g)) = released log := by
  rw [released, released, List.filterMap_map]
  congr 2
  funext e
  cases e <;> rfl

end

end Drain

open Drain

variable {P C T : Type} [DecidableEq P] [DecidableEq C] [Fintype P] [Fintype C] [Elem T] {fuel : Nat}
  {requested capacity : BitVec 64}

/-- **Retry and drain lose nothing.** A failed `try_push` leaves its argument,
a consumer only leaves when every ticket has gone to a pop, and once all have
left, their items are those of the producers. -/
theorem drain_complete [Nonempty C] (version : AtomicVersion) (hcap : normalizeCapacity fuel requested = some capacity)
    (items : P → List T) {s : Drain.State P C T} (hr : (Drain.machine version capacity items).Reachable s)
    (hlt : (pushClaims s.queue.2).length < 2 ^ 63 - capacity.toNat) :
    (∀ p k arg, s.queue.1.pc (.inl p) = .done k (.pushed false arg) → s.payload p = some arg) ∧
    ((∀ p, s.finished p = true) → (∃ c, s.phase c = .exited) → ∀ k ∈ pushClaims s.queue.2, k ∈ popClaims s.queue.2) ∧
    ((∀ c, s.phase c = .exited) → ∑ c, (s.out c : Multiset T) = ∑ p, (items p : Multiset T)) := by
  have hI := inv_reachable hr
  obtain ⟨y, hR, hroom, hy⟩ := AtomicVersion.reads hcap (queue_reachable hr) hlt
  have hle := hR.inv.lap.le
  have hempty : (∃ c, s.phase c = .exited) → y.1.queue.enqueuePos = y.1.queue.dequeuePos := by
    intro hc
    obtain ⟨c, hc⟩ := hc
    have he := drained_reachable hcap hr hlt c (.inl hc)
    rw [hy] at he
    exact Counter.word_inj (w := 64) (by omega) (by omega) he
  refine ⟨fun p k arg hpc => ?_, fun _ hc k hk => ?_, fun hall => ?_⟩
  · have hf := hI.producers p
    rw [hpc] at hf
    exact hf
  · have hlog : s.queue.2 = y.2.map (TicketEvent.map (word 64)) := congrArg Prod.snd hy
    rw [hlog] at hk ⊢
    rw [pushClaims_map, hR.pushes, hempty hc, ← hR.pops, ← popClaims_map] at hk
    exact hk
  · obtain ⟨c₀⟩ := ‹Nonempty C›
    have hfin := hI.exiting c₀ (.inr (hall c₀))
    have hconsumer : ∀ c, s.queue.1.pc (.inr c) = .idle := fun c =>
      hI.idle c (by rw [hall c]; intro he; cases he) (by rw [hall c]; intro he; cases he)
    have hproducer : ∀ p, s.queue.1.pc (.inl p) = .idle := by
      intro p
      have hf := hI.producers p
      rw [(hI.finished p (hfin p)).1] at hf
      exact idle_of_none hf
    -- no thread is at a pop, so what was put into cells has come out
    have hpass : constructed s.queue.2 = released s.queue.2 := by
      have hlog : s.queue.2 = y.2.map (TicketEvent.map (word 64)) := congrArg Prod.snd hy
      rw [hlog, constructed_map, released_map]
      refine handed_over hR (hempty ⟨c₀, hall c₀⟩) fun u => ?_
      have hu : (y.1.pc u).map (word 64) = s.queue.1.pc u := by rw [hy]; rfl
      have hnone : popTicket ((y.1.pc u).map (word 64)) = none := by
        rw [hu]
        cases u with
        | inl p => rw [hproducer p]; rfl
        | inr c => rw [hconsumer c]; rfl
      rw [popTicket_map] at hnone
      exact Option.map_eq_none_iff.mp hnone
    have hleft : ∑ p, s.left p = 0 := Finset.sum_eq_zero fun p _ => by
      rw [State.left, hproducer p, (hI.finished p (hfin p)).1, (hI.finished p (hfin p)).2]
      rfl
    have hgot : ∑ c, s.got c = ∑ c, (s.out c : Multiset T) := Finset.sum_congr rfl fun c _ => by
      rw [State.got, hconsumer c]
      exact add_zero _
    rw [hI.sent, hleft, zero_add, hpass, hI.received, hgot]

def drainOne : List (Drain.Label Unit Unit) :=
  [.make (), .push (), .move (.inl ()) .go, .move (.inl ()) .go, .move (.inl ()) .go, .move (.inl ()) .go,
    .move (.inl ()) .go, .move (.inl ()) .go, .pushed (), .finish (), .pop (), .move (.inr ()) .go, .move (.inr ()) .go,
    .move (.inr ()) .go, .move (.inr ()) .go, .move (.inr ()) .go, .move (.inr ()) .go, .popped (), .pop (),
    .move (.inr ()) .go, .move (.inr ()) .go, .popped (), .load (), .pop (), .move (.inr ()) .go, .move (.inr ()) .go,
    .popped ()]

theorem drain_complete_one : ∃ s, (Drain.machine .V2 2#64 fun _ : Unit => [7]).exec drainOne = some s ∧
    ∑ c : Unit, (s.out c : Multiset Nat) = ∑ _p : Unit, ([7] : Multiset Nat) := by
  have hrun : ((Drain.machine (C := Unit) .V2 2#64 fun _ : Unit => [7]).exec drainOne).map
      (fun s => ((pushClaims s.queue.2).length, s.phase ())) = some (1, .exited) := by decide
  obtain ⟨s, hs, hobs⟩ := Option.map_eq_some_iff.mp hrun
  have hpush : (pushClaims s.queue.2).length = 1 := congrArg Prod.fst hobs
  have hphase : s.phase () = .exited := congrArg Prod.snd hobs
  have hcap : normalizeCapacity 3 2#64 = some 2#64 := by decide
  refine ⟨s, hs, ?_⟩
  exact (drain_complete .V2 hcap _ (Machine.exec_reachable _ hs) (by rw [hpush]; decide)).2.2 fun _ => hphase

end Yutil
