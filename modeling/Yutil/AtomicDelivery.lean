import Yutil.AtomicWords

/-!
# Exactly-once tickets

Each claimed ticket carries one value from one push to one pop, and a
published value stays in its cell until a pop claims the ticket.
-/

namespace Yutil

open Interleave

namespace Atomic

section
variable {Tid T : Type} [Elem T] {c k : Nat} {s : State Tid Nat T} {l : List (TicketEvent Tid Nat T)}

theorem Life.begins (h : Life c s k l) : l = [] ∨ ∃ u t v, l <+: lifecycle u t k v := by
  cases h with
  | unclaimed => exact .inl rfl
  | @claimed u arg => exact .inr ⟨u, u, arg, _, rfl⟩
  | @constructed u v => exact .inr ⟨u, u, v, _, rfl⟩
  | @published u v => exact .inr ⟨u, u, v, _, rfl⟩
  | @popClaimed u t v => exact .inr ⟨u, t, v, _, rfl⟩
  | @movedOut u t v => exact .inr ⟨u, t, v, _, rfl⟩
  | @released u t v => exact .inr ⟨u, t, v, _, rfl⟩

theorem Life.intact (h : Life c s k l) (hI : Inv c s) (hk : s.queue.dequeuePos ≤ k) {u w : Tid} {v : T}
    (hp : .published u k ∈ l) (hv : .constructed w k v ∈ l) : (s.queue.cell c k).storage = some v := by
  obtain ⟨-, rfl⟩ | ⟨_, _, -, rfl⟩ | ⟨_, _, -, -, rfl⟩ | ⟨_, _, -, -, hs, rfl⟩ := h.unpopped hI hk
  · cases hp
  · simp at hp
  · simp at hp
  · rw [hs]
    simp at hv
    rw [hv.2]

end

variable {Tid T : Type} {w c : Nat}

theorem ticket_map (g : Nat → BitVec w) (e : TicketEvent Tid Nat T) : (e.map g).ticket = g e.ticket := by
  cases e <;> rfl

theorem mem_history {N : Type} [DecidableEq N] {log : List (TicketEvent Tid N T)} {e : TicketEvent Tid N T} {k : N} :
    e ∈ history log k ↔ e ∈ log ∧ e.ticket = k := by
  rw [history, List.mem_filter]
  simp

variable [Elem T] {s : State Tid Nat T} {log : List (TicketEvent Tid Nat T)}

theorem Recorded.ticket_lt (h : Recorded c s log) {e : TicketEvent Tid Nat T} (he : e ∈ log) :
    e.ticket < s.queue.enqueuePos := by
  by_contra hge
  have := (h.life e.ticket).at_unclaimed h.inv (by omega)
  rw [List.eq_nil_iff_forall_not_mem] at this
  exact this e (mem_history.mpr ⟨he, rfl⟩)

theorem Recorded.history_map (h : Recorded c s log) (hlt : s.queue.enqueuePos ≤ 2 ^ w) {k : Nat} (hk : k < 2 ^ w) :
    history (log.map (TicketEvent.map (word w))) (word w k) = (history log k).map (TicketEvent.map (word w)) := by
  rw [history, history, List.filter_map]
  congr 1
  apply List.filter_congr
  intro e he
  have hlt' := h.ticket_lt he
  have hiff : word w e.ticket = word w k ↔ e.ticket = k := ⟨Counter.word_inj (by omega) hk, congrArg _⟩
  simp [ticket_map, hiff]

end Atomic

/-! ## The three versions -/

variable {Tid T : Type} [DecidableEq Tid] [Elem T] {fuel : Nat} {requested capacity : BitVec 64}

open Atomic

namespace AtomicVersion

def recorded (version : AtomicVersion) (Tid T : Type) [DecidableEq Tid] [Elem T] (capacity : BitVec 64) :
    Machine (State Tid (BitVec 64) T × List (TicketEvent Tid (BitVec 64) T)) (Label Tid T) :=
  (version.machine Tid T capacity false).logged (trace capacity.toNat)

theorem recorded_eq (version : AtomicVersion) (Tid T : Type) [DecidableEq Tid] [Elem T] (capacity : BitVec 64) :
    version.recorded Tid T capacity = wordMachine Tid T 64 version.backoff capacity.toNat := by
  rw [recorded, machine_eq, wordMachine]

/-- The queue with the log of what its threads do with tickets; element operations may throw. -/
def ticketed (version : AtomicVersion) (Tid T : Type) [DecidableEq Tid] [Elem T] (capacity : BitVec 64) (throwing : Bool) :
    Machine (State Tid (BitVec 64) T × List (TicketEvent Tid (BitVec 64) T)) (Label Tid T) :=
  (version.machine Tid T capacity throwing).logged (trace capacity.toNat)

theorem ticketed_eq (version : AtomicVersion) (capacity : BitVec 64) (throwing : Bool) :
    version.ticketed Tid T capacity throwing =
      (Atomic.machine Tid (BitVec 64) T version.backoff capacity.toNat throwing).logged (trace capacity.toNat) := by
  rw [ticketed, machine_eq]

theorem capacity_spec (hcap : normalizeCapacity fuel requested = some capacity) :
    2 ≤ capacity.toNat ∧ ∃ j, j < 64 ∧ capacity.toNat = 2 ^ j := by
  obtain ⟨j, hj, hj', hpow⟩ := normalizeCapacity_spec (by decide) hcap
  refine ⟨?_, j, hj', hpow⟩
  rw [hpow]
  exact Nat.pow_le_pow_right (n := 2) (by omega) hj

variable {version : AtomicVersion} {x x' : State Tid (BitVec 64) T × List (TicketEvent Tid (BitVec 64) T)}

theorem reads (hcap : normalizeCapacity fuel requested = some capacity)
    (hr : (version.recorded Tid T capacity).Reachable x) (hlt : (pushClaims x.2).length < 2 ^ 63 - capacity.toNat) :
    ∃ y, Recorded capacity.toNat y.1 y.2 ∧ y.1.queue.enqueuePos + capacity.toNat < 2 ^ 63 ∧ x = words 64 y := by
  obtain ⟨hc, hpow⟩ := capacity_spec hcap
  rw [recorded_eq] at hr
  obtain ⟨y, hy, rfl⟩ := words_of_reachable hc hpow hr (by omega)
  have hR := recorded_reachable hc hy
  refine ⟨y, hR, ?_, rfl⟩
  rw [words_claims hR] at hlt
  omega

theorem reads_step (hcap : normalizeCapacity fuel requested = some capacity) {a : Label Tid T}
    (hr : (version.recorded Tid T capacity).Reachable x) (hlt : (pushClaims x.2).length < 2 ^ 63 - capacity.toNat)
    (hs : (version.recorded Tid T capacity).step x a = some x') :
    ∃ y y', Recorded capacity.toNat y.1 y.2 ∧ y.1.queue.enqueuePos + capacity.toNat < 2 ^ 63 ∧
      (natMachine Tid T version.backoff capacity.toNat).step y a = some y' ∧ x = words 64 y ∧ x' = words 64 y' := by
  obtain ⟨y, hR, hroom, rfl⟩ := reads hcap hr hlt
  rw [recorded_eq] at hs
  obtain ⟨y', hy, rfl⟩ := words_step hR (capacity_spec hcap).2 hroom hs
  exact ⟨y, y', hR, hroom, hy, rfl, rfl⟩

end AtomicVersion

theorem word_toNat {k : Nat} (hk : k < 2 ^ 64) : (word 64 k).toNat = k := by
  rw [BitVec.toNat_ofNat, Nat.mod_eq_of_lt hk]

theorem range_words {n : Nat} (hn : n ≤ 2 ^ 64) : ((List.range n).map (word 64)).map BitVec.toNat = List.range n := by
  rw [List.map_map]
  conv => rhs; rw [← List.map_id (List.range n)]
  apply List.map_congr_left
  intro k hk
  exact word_toNat (by have := List.mem_range.mp hk; omega)

/-- **Exactly-once ticketed FIFO.** The window of taken cells; the tickets,
each claimed once and in order; what happens to a ticket, which is one push
and one pop of one value; and the cells of the tickets still to be popped. -/
theorem tickets_exactly_once (version : AtomicVersion) (hcap : normalizeCapacity fuel requested = some capacity)
    {s : State Tid (BitVec 64) T} {log : List (TicketEvent Tid (BitVec 64) T)}
    (hr : (version.recorded Tid T capacity).Reachable (s, log))
    (hlt : (pushClaims log).length < 2 ^ 63 - capacity.toNat) :
    (s.queue.dequeuePos.toNat ≤ s.queue.enqueuePos.toNat ∧
      s.queue.enqueuePos.toNat ≤ s.queue.dequeuePos.toNat + capacity.toNat) ∧
    ((pushClaims log).map BitVec.toNat = List.range s.queue.enqueuePos.toNat ∧
      (popClaims log).map BitVec.toNat = List.range s.queue.dequeuePos.toNat) ∧
    (∀ e ∈ log, ∃ u t v, history log e.ticket <+: lifecycle u t e.ticket v) ∧
    ∀ u w k v, .constructed u k v ∈ log → .published w k ∈ log → s.queue.dequeuePos.toNat ≤ k.toNat →
      (s.queue.cell capacity.toNat k).storage = some v := by
  obtain ⟨y, hR, hroom, hx⟩ := AtomicVersion.reads hcap hr hlt
  obtain ⟨rfl, rfl⟩ := Prod.ext_iff.mp hx
  have hle := hR.inv.lap.le
  have hb := hR.inv.lap.bound
  have hE : ((y.1.map (word 64)).queue.enqueuePos).toNat = y.1.queue.enqueuePos := word_toNat (by omega)
  have hD : ((y.1.map (word 64)).queue.dequeuePos).toNat = y.1.queue.dequeuePos := word_toNat (by omega)
  have hhist : ∀ k, k < 2 ^ 64 → history (words 64 y).2 (word 64 k) = _ := fun k hk =>
    hR.history_map (w := 64) (by omega) hk
  have hlog : ∀ e ∈ (words 64 y).2, ∃ e' ∈ y.2, e'.map (word 64) = e := fun e he => List.mem_map.mp he
  simp only [words] at *
  rw [hE, hD]
  refine ⟨⟨hle, hb⟩, ⟨?_, ?_⟩, ?_, ?_⟩
  · rw [pushClaims_map, hR.pushes]; exact range_words (by omega)
  · rw [popClaims_map, hR.pops]; exact range_words (by omega)
  · intro e he
    obtain ⟨e, he', rfl⟩ := hlog e he
    have hk := hR.ticket_lt he'
    rw [ticket_map, hhist _ (by omega)]
    rcases (hR.life e.ticket).begins with hnil | ⟨u, t, v, hp⟩
    · rw [List.eq_nil_iff_forall_not_mem] at hnil
      exact absurd (mem_history.mpr ⟨he', rfl⟩) (hnil e)
    · exact ⟨u, t, v, hp.map (TicketEvent.map (word 64))⟩
  · intro u w k v hv hp hk
    obtain ⟨e, he, hev⟩ := hlog _ hv
    obtain ⟨e', he', hep⟩ := hlog _ hp
    cases e with
    | constructed u' k' v' =>
      cases e' with
      | published w' j =>
        simp only [TicketEvent.map, TicketEvent.constructed.injEq, TicketEvent.published.injEq] at hev hep
        obtain ⟨rfl, rfl, rfl⟩ := hev
        have h1 := hR.ticket_lt he
        have h2 := hR.ticket_lt he'
        simp only [TicketEvent.ticket] at h1 h2
        obtain rfl : j = k' := Counter.word_inj (by omega) (by omega) hep.2
        rw [word_toNat (by omega)] at hk
        have hs := (hR.life j).intact hR.inv hk (mem_history.mpr ⟨he', rfl⟩) (mem_history.mpr ⟨he, rfl⟩)
        have hq := hR.inv.fits (w := 64) ?_ (by omega)
        · show (((y.1.queue.map (word 64)).cell capacity.toNat (word 64 j)).storage) = _
          rw [hq.cell j]
          exact hs
        · exact (AtomicVersion.capacity_spec hcap).2
      | _ => simp [TicketEvent.map] at hep
    | _ => simp [TicketEvent.map] at hev

def pushThenPop : List (Label Bool Nat) :=
  [.call true (.emplace 7), .move true .go, .move true .go, .move true .go, .move true .spurious, .move true .go,
    .move true .go, .move true .go, .move true .go, .ret true, .call false .tryPop, .move false .go, .move false .go,
    .move false .go, .move false .go]

theorem tickets_exactly_once_one :
    ∃ x, (AtomicVersion.V3.recorded Bool Nat 2#64).exec pushThenPop = some x ∧ popClaims x.2 = [0] ∧
      (popClaims x.2).map BitVec.toNat = List.range x.1.queue.dequeuePos.toNat := by
  have hrun : ((AtomicVersion.V3.recorded Bool Nat 2#64).exec pushThenPop).map
      (fun x => ((pushClaims x.2).length, popClaims x.2)) = some (1, [0]) := by decide
  obtain ⟨x, hx, hlog⟩ := Option.map_eq_some_iff.mp hrun
  have hpush : (pushClaims x.2).length = 1 := congrArg Prod.fst hlog
  have hcap : normalizeCapacity 3 2#64 = some 2#64 := by decide
  refine ⟨x, hx, congrArg Prod.snd hlog, ?_⟩
  exact (tickets_exactly_once .V3 hcap (Machine.exec_reachable _ hx) (by rw [hpush]; decide)).2.1.2

end Yutil
