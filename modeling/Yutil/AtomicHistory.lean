import Yutil.AtomicTickets

/-!
# The history of a ticket

What the threads do with tickets, as a log, and how far each ticket is. The
events of a ticket are those of one push followed by those of one pop, cut off
where the two calls are now.
-/

namespace Yutil.Atomic

open Interleave

inductive TicketEvent (Tid N T : Type)
  | claimed (t : Tid) (ticket : N)
  | constructed (t : Tid) (ticket : N) (value : T)
  | published (t : Tid) (ticket : N)
  | popClaimed (t : Tid) (ticket : N)
  | movedOut (t : Tid) (ticket : N) (value : T)
  | released (t : Tid) (ticket : N) (value : T)
  deriving DecidableEq, Repr

namespace TicketEvent

variable {Tid N T : Type}

def ticket : TicketEvent Tid N T → N
  | .claimed _ k | .constructed _ k _ | .published _ k | .popClaimed _ k | .movedOut _ k _ | .released _ k _ => k

def pushClaim : TicketEvent Tid N T → Option N
  | .claimed _ k => some k
  | _ => none

def popClaim : TicketEvent Tid N T → Option N
  | .popClaimed _ k => some k
  | _ => none

end TicketEvent

section
variable {Tid N T : Type} [DecidableEq N]

def pushClaims (log : List (TicketEvent Tid N T)) : List N := log.filterMap (·.pushClaim)

def popClaims (log : List (TicketEvent Tid N T)) : List N := log.filterMap (·.popClaim)

def history (log : List (TicketEvent Tid N T)) (k : N) : List (TicketEvent Tid N T) := log.filter (·.ticket = k)

/-- All that happens to a ticket: thread `u` pushes `v` with it, thread `t` pops it. -/
def lifecycle (u t : Tid) (k : N) (v : T) : List (TicketEvent Tid N T) :=
  [.claimed u k, .constructed u k v, .published u k, .popClaimed t k, .movedOut t k v, .released t k v]

variable [DecidableEq Tid] [Counter N] [Elem T]

/-- What a step of the system does with a ticket. -/
def trace (capacity : Nat) (s : State Tid N T) : Label Tid T → List (TicketEvent Tid N T)
  | .move t .go =>
    match s.pc t with
    | .claim _ pos _ => if s.queue.enqueuePos = pos then [.claimed t pos] else []
    | .construct arg pos => [.constructed t pos arg]
    | .publish _ pos => [.published t pos]
    | .claimPop pos _ => if s.queue.dequeuePos = pos then [.popClaimed t pos] else []
    | .moveOut pos => [.movedOut t pos ((s.queue.cell capacity pos).storage.getD default)]
    | .release pos out => [.released t pos out]
    | _ => []
  | _ => []

end

section
variable {Tid N T : Type} [DecidableEq N] [Counter N] [Elem T] {c : Nat} {s : State Tid N T} {t : Tid} {m : Move} {pos : N}
  {spins : Nat}

theorem trace_claim {arg : T} (hpc : s.pc t = .claim arg pos spins) (he : s.queue.enqueuePos = pos) :
    trace c s (.move t .go) = [.claimed t pos] := by
  simp only [trace, hpc, if_pos he]

theorem trace_claimPop (hpc : s.pc t = .claimPop pos spins) (he : s.queue.dequeuePos = pos) :
    trace c s (.move t .go) = [.popClaimed t pos] := by
  simp only [trace, hpc, if_pos he]

theorem trace_lost {arg : T} (hpc : s.pc t = .claim arg pos spins) (hl : m = .go ∧ s.queue.enqueuePos ≠ pos ∨ m = .spurious) :
    trace c s (.move t m) = [] := by
  rcases hl with ⟨rfl, hl⟩ | rfl
  · simp only [trace, hpc, if_neg hl]
  · rfl

theorem trace_lostPop (hpc : s.pc t = .claimPop pos spins) (hl : m = .go ∧ s.queue.dequeuePos ≠ pos ∨ m = .spurious) :
    trace c s (.move t m) = [] := by
  rcases hl with ⟨rfl, hl⟩ | rfl
  · simp only [trace, hpc, if_neg hl]
  · rfl

end

variable {Tid T : Type} {c k : Nat} {s : State Tid Nat T}

/-- Where a ticket is, with its history so far. -/
inductive Life [Elem T] (c : Nat) (s : State Tid Nat T) (k : Nat) : List (TicketEvent Tid Nat T) → Prop
  | unclaimed : s.queue.enqueuePos ≤ k → Life c s k []
  | claimed {u : Tid} {arg : T} : s.pc u = .construct arg k → Life c s k [.claimed u k]
  | constructed {u : Tid} {v : T} : s.pc u = .publish (Elem.moved v) k → (s.queue.cell c k).storage = some v →
      Life c s k [.claimed u k, .constructed u k v]
  | published {u : Tid} {v : T} : s.queue.dequeuePos ≤ k → k < s.queue.enqueuePos →
      (s.queue.cell c k).sequence = k + 1 → (s.queue.cell c k).storage = some v →
      Life c s k [.claimed u k, .constructed u k v, .published u k]
  | popClaimed {u t : Tid} {v : T} : s.pc t = .moveOut k → (s.queue.cell c k).storage = some v →
      Life c s k [.claimed u k, .constructed u k v, .published u k, .popClaimed t k]
  | movedOut {u t : Tid} {v : T} : s.pc t = .destroy k v ∨ s.pc t = .release k v →
      Life c s k [.claimed u k, .constructed u k v, .published u k, .popClaimed t k, .movedOut t k v]
  | released {u t : Tid} {v : T} : k < s.queue.dequeuePos → (∀ w, popTicket (s.pc w) ≠ some k) →
      (s.queue.enqueuePos ≤ k + c → (s.queue.cell c k).sequence ≠ k + 1) → Life c s k (lifecycle u t k v)

namespace Life

variable {l : List (TicketEvent Tid Nat T)} {t : Tid}

/-! ## Reading the history off a frame -/

theorem construct_bounds (hI : Inv c s) {u : Tid} {arg : T} (h : s.pc u = .construct arg k) :
    s.queue.dequeuePos ≤ k ∧ k < s.queue.enqueuePos ∧ (s.queue.cell c k).sequence = k ∧
      (s.queue.cell c k).storage = none := by
  have := hI.frames u
  rwa [h] at this

theorem publish_bounds (hI : Inv c s) {u : Tid} {arg : T} (h : s.pc u = .publish arg k) :
    s.queue.dequeuePos ≤ k ∧ k < s.queue.enqueuePos ∧ (s.queue.cell c k).sequence = k ∧
      (s.queue.cell c k).storage.isSome = true := by
  have := hI.frames u
  rwa [h] at this

theorem pop_bounds (hI : Inv c s) {u : Tid} (h : popTicket (s.pc u) = some k) :
    k < s.queue.dequeuePos ∧ s.queue.enqueuePos ≤ k + c ∧ (s.queue.cell c k).sequence = k + 1 := by
  have hf := hI.frames u
  cases hpc : s.pc u with
  | moveOut p => rw [hpc] at hf h; cases h; exact ⟨hf.1, hf.2.1, hf.2.2.1⟩
  | destroy p o => rw [hpc] at hf h; cases h; exact ⟨hf.1, hf.2.1, hf.2.2.1⟩
  | release p o => rw [hpc] at hf h; cases h; exact ⟨hf.1, hf.2.1, hf.2.2.1⟩
  | _ => rw [hpc] at h; cases h

theorem holds_ticket {u : Tid} {v : T} (h : s.pc u = .destroy k v ∨ s.pc u = .release k v) :
    popTicket (s.pc u) = some k := by
  rcases h with h | h <;> rw [h] <;> rfl

variable [Elem T]

theorem unpopped (h : Life c s k l) (hI : Inv c s) (hk : s.queue.dequeuePos ≤ k) :
    (s.queue.enqueuePos ≤ k ∧ l = []) ∨ (∃ u arg, s.pc u = .construct arg k ∧ l = [.claimed u k]) ∨
    (∃ u v, s.pc u = .publish (Elem.moved v) k ∧ (s.queue.cell c k).storage = some v ∧
      l = [.claimed u k, .constructed u k v]) ∨
    ∃ u v, k < s.queue.enqueuePos ∧ (s.queue.cell c k).sequence = k + 1 ∧ (s.queue.cell c k).storage = some v ∧
      l = [.claimed u k, .constructed u k v, .published u k] := by
  cases h with
  | unclaimed he => exact .inl ⟨he, rfl⟩
  | @claimed u arg hp => exact .inr (.inl ⟨u, arg, hp, rfl⟩)
  | @constructed u v hp hv => exact .inr (.inr (.inl ⟨u, v, hp, hv, rfl⟩))
  | @published u v _ h2 hs hv => exact .inr (.inr (.inr ⟨u, v, h2, hs, hv, rfl⟩))
  | @popClaimed _ t _ hp => have := pop_bounds (u := t) hI (by rw [hp]; rfl); omega
  | movedOut hp => have := pop_bounds hI (holds_ticket hp); omega
  | released => omega

theorem popped (h : Life c s k l) (hI : Inv c s) (hk : k < s.queue.dequeuePos) :
    (∃ u t v, s.pc t = .moveOut k ∧ (s.queue.cell c k).storage = some v ∧
      l = [.claimed u k, .constructed u k v, .published u k, .popClaimed t k]) ∨
    (∃ u t v, (s.pc t = .destroy k v ∨ s.pc t = .release k v) ∧
      l = [.claimed u k, .constructed u k v, .published u k, .popClaimed t k, .movedOut t k v]) ∨
    ∃ u t v, (∀ w, popTicket (s.pc w) ≠ some k) ∧
      (s.queue.enqueuePos ≤ k + c → (s.queue.cell c k).sequence ≠ k + 1) ∧ l = lifecycle u t k v := by
  cases h with
  | unclaimed => have := hI.lap.le; omega
  | claimed hp => have := construct_bounds hI hp; omega
  | constructed hp => have := publish_bounds hI hp; omega
  | published => omega
  | @popClaimed u t v hp hv => exact .inl ⟨u, t, v, hp, hv, rfl⟩
  | @movedOut u t v hp => exact .inr (.inl ⟨u, t, v, hp, rfl⟩)
  | @released u t v _ hno hs => exact .inr (.inr ⟨u, t, v, hno, hs, rfl⟩)

theorem at_unclaimed (h : Life c s k l) (hI : Inv c s) (hk : s.queue.enqueuePos ≤ k) : l = [] := by
  have hle := hI.lap.le
  obtain ⟨-, hl⟩ | ⟨u, arg, hp, -⟩ | ⟨u, v, hp, -⟩ | ⟨u, v, hlt, -⟩ := h.unpopped hI (by omega)
  · exact hl
  · have := construct_bounds hI hp
    omega
  · have := publish_bounds hI hp
    omega
  · omega

theorem at_construct (h : Life c s k l) (hI : Inv c s) {arg : T} (ht : s.pc t = .construct arg k) :
    l = [.claimed t k] := by
  obtain ⟨h1, h2, h3, h4⟩ := construct_bounds hI ht
  obtain ⟨he, -⟩ | ⟨u, arg', hp, hl⟩ | ⟨u, v, -, hv, -⟩ | ⟨u, v, -, hs, -, -⟩ := h.unpopped hI h1
  · omega
  · obtain rfl : u = t := hI.pushers u t k (by rw [hp]; rfl) (by rw [ht]; rfl)
    exact hl
  · rw [h4] at hv
    cases hv
  · omega

theorem at_publish (h : Life c s k l) (hI : Inv c s) {arg : T} (ht : s.pc t = .publish arg k) :
    ∃ v, (s.queue.cell c k).storage = some v ∧ l = [.claimed t k, .constructed t k v] := by
  obtain ⟨h1, h2, h3, h4⟩ := publish_bounds hI ht
  obtain ⟨he, -⟩ | ⟨u, arg', hp, -⟩ | ⟨u, v, hp, hv, hl⟩ | ⟨u, v, -, hs, -, -⟩ := h.unpopped hI h1
  · omega
  · rw [(construct_bounds hI hp).2.2.2] at h4
    cases h4
  · obtain rfl : u = t := hI.pushers u t k (by rw [hp]; rfl) (by rw [ht]; rfl)
    exact ⟨v, hv, hl⟩
  · omega

theorem at_item (h : Life c s k l) (hI : Inv c s) (h1 : s.queue.dequeuePos ≤ k) (h2 : k < s.queue.enqueuePos)
    (hs : (s.queue.cell c k).sequence = k + 1) :
    ∃ u v, (s.queue.cell c k).storage = some v ∧ l = [.claimed u k, .constructed u k v, .published u k] := by
  obtain ⟨he, -⟩ | ⟨u, arg, hp, -⟩ | ⟨u, v, hp, -⟩ | ⟨u, v, -, -, hv, hl⟩ := h.unpopped hI h1
  · omega
  · have := construct_bounds hI hp
    omega
  · have := publish_bounds hI hp
    omega
  · exact ⟨u, v, hv, hl⟩

theorem at_moveOut (h : Life c s k l) (hI : Inv c s) (ht : s.pc t = .moveOut k) :
    ∃ u v, (s.queue.cell c k).storage = some v ∧
      l = [.claimed u k, .constructed u k v, .published u k, .popClaimed t k] := by
  have hk : popTicket (s.pc t) = some k := by rw [ht]; rfl
  obtain ⟨u, t', v, hp, hv, hl⟩ | ⟨u, t', v, hp, -⟩ | ⟨u, t', v, hno, -, -⟩ := h.popped hI (pop_bounds hI hk).1
  · obtain rfl : t' = t := hI.poppers t' t k (by rw [hp]; rfl) hk
    exact ⟨u, v, hv, hl⟩
  · obtain rfl : t' = t := hI.poppers t' t k (holds_ticket hp) hk
    rw [ht] at hp
    rcases hp with hp | hp <;> cases hp
  · exact absurd hk (hno t)

theorem at_hold (h : Life c s k l) (hI : Inv c s) {v : T} (ht : s.pc t = .destroy k v ∨ s.pc t = .release k v) :
    ∃ u, l = [.claimed u k, .constructed u k v, .published u k, .popClaimed t k, .movedOut t k v] := by
  have hk := holds_ticket ht
  obtain ⟨u, t', v', hp, -⟩ | ⟨u, t', v', hp, hl⟩ | ⟨u, t', v', hno, -, -⟩ := h.popped hI (pop_bounds hI hk).1
  · obtain rfl : t' = t := hI.poppers t' t k (by rw [hp]; rfl) hk
    rw [hp] at ht
    rcases ht with ht | ht <;> cases ht
  · obtain rfl : t' = t := hI.poppers t' t k (holds_ticket hp) hk
    refine ⟨u, ?_⟩
    rcases hp with hp | hp <;> rw [hp] at ht <;> rcases ht with ht | ht <;> cases ht <;> exact hl
  · exact absurd hk (hno t)

/-! ## Steps -/

variable [DecidableEq Tid] {q' : NatQueue T} {f : Frame Nat T}

theorem other (h : Life c s k l) (hI : Inv c s) (he : s.queue.enqueuePos ≤ q'.enqueuePos)
    (he' : s.queue.enqueuePos ≤ k → q'.enqueuePos ≤ k) (hd : s.queue.dequeuePos ≤ q'.dequeuePos)
    (hd' : s.queue.dequeuePos ≤ k → q'.dequeuePos ≤ k) (h1 : pushTicket (s.pc t) ≠ some k)
    (h2 : popTicket (s.pc t) ≠ some k) (h3 : popTicket f ≠ some k)
    (hin : s.queue.dequeuePos ≤ k → k < s.queue.enqueuePos → q'.cell c k = s.queue.cell c k)
    (hout : k < s.queue.dequeuePos → s.queue.enqueuePos ≤ k + c → q'.cell c k = s.queue.cell c k) :
    Life c ⟨q', Function.update s.pc t f⟩ k l := by
  -- the owner of the ticket is not the thread that moves
  have stays : ∀ u, pushTicket (s.pc u) = some k ∨ popTicket (s.pc u) = some k →
      Function.update s.pc t f u = s.pc u := by
    intro u hu
    refine Function.update_of_ne (fun hut => ?_) ..
    subst hut
    rcases hu with hu | hu
    · exact h1 hu
    · exact h2 hu
  cases h with
  | unclaimed hk => exact .unclaimed (he' hk)
  | claimed hp => exact .claimed ((stays _ (.inl (by rw [hp]; rfl))).trans hp)
  | constructed hp hv =>
    obtain ⟨b1, b2, -⟩ := publish_bounds hI hp
    exact .constructed ((stays _ (.inl (by rw [hp]; rfl))).trans hp) (by rw [hin b1 b2]; exact hv)
  | published b1 b2 hs hv =>
    exact .published (hd' b1) (Nat.lt_of_lt_of_le b2 he) (by rw [hin b1 b2]; exact hs) (by rw [hin b1 b2]; exact hv)
  | @popClaimed _ u _ hp hv =>
    have hk : popTicket (s.pc u) = some k := by rw [hp]; rfl
    obtain ⟨b1, b2, -⟩ := pop_bounds hI hk
    exact .popClaimed ((stays _ (.inr hk)).trans hp) (by rw [hout b1 b2]; exact hv)
  | movedOut hp =>
    refine .movedOut ?_
    simp only [stays _ (.inr (holds_ticket hp))]
    exact hp
  | released hk hno hs =>
    refine .released (Nat.lt_of_lt_of_le hk hd) (fun w hw => ?_) fun hr => ?_
    · by_cases hwt : w = t
      · subst hwt; simp only [Function.update_self] at hw; exact h3 hw
      · simp only [Function.update_of_ne hwt] at hw; exact hno w hw
    · rw [hout hk (Nat.le_trans he hr)]
      exact hs (Nat.le_trans he hr)

theorem beside_push (h : Life c s k l) (hI : Inv c s) {pos : Nat} (hpos : pushTicket (s.pc t) = some pos)
    (hnone : popTicket (s.pc t) = none) (h1 : s.queue.dequeuePos ≤ pos) (h2 : pos < s.queue.enqueuePos)
    (he : q'.enqueuePos = s.queue.enqueuePos) (hd : q'.dequeuePos = s.queue.dequeuePos)
    (hcell : ∀ j, j % c ≠ pos % c → q'.cell c j = s.queue.cell c j) (hf : popTicket f = none) (hne : k ≠ pos) :
    Life c ⟨q', Function.update s.pc t f⟩ k l := by
  have hb := hI.lap.bound
  refine h.other hI (Nat.le_of_eq he.symm) (fun hk => he ▸ hk) (Nat.le_of_eq hd.symm) (fun hk => hd ▸ hk) ?_ ?_ ?_ ?_ ?_
  · rw [hpos]; simpa using Ne.symm hne
  · rw [hnone]; simp
  · rw [hf]; simp
  · intro b1 b2
    exact hcell k fun hmod => hne (Counter.window_inj b1 (by omega) h1 (by omega) hmod)
  · intro b1 b2
    apply hcell k
    intro hmod
    have hmod' : (k + c) % c = pos % c := by rwa [Nat.add_mod_right]
    have := Counter.window_inj (by omega) (by omega) h1 (by omega) hmod'
    omega

theorem beside_pop (h : Life c s k l) (hI : Inv c s) {pos : Nat} (hpos : popTicket (s.pc t) = some pos)
    (hnone : pushTicket (s.pc t) = none) (he : q'.enqueuePos = s.queue.enqueuePos)
    (hd : q'.dequeuePos = s.queue.dequeuePos) (hcell : ∀ j, j % c ≠ pos % c → q'.cell c j = s.queue.cell c j)
    (hf : popTicket f = none ∨ popTicket f = some pos) (hne : k ≠ pos) :
    Life c ⟨q', Function.update s.pc t f⟩ k l := by
  have hb := hI.lap.bound
  have hle := hI.lap.le
  obtain ⟨h1, h2, -⟩ := pop_bounds hI hpos
  refine h.other hI (Nat.le_of_eq he.symm) (fun hk => he ▸ hk) (Nat.le_of_eq hd.symm) (fun hk => hd ▸ hk) ?_ ?_ ?_ ?_ ?_
  · rw [hnone]; simp
  · rw [hpos]; simpa using Ne.symm hne
  · rcases hf with hf | hf <;> rw [hf]
    · simp
    · simpa using Ne.symm hne
  · intro b1 b2
    apply hcell k
    intro hmod
    have hmod' : k % c = (pos + c) % c := by rwa [Nat.add_mod_right]
    have := Counter.window_inj b1 (by omega) (by omega) (by omega) hmod'
    omega
  · intro b1 b2
    refine hcell k fun hmod => hne ?_
    have hmod' : (k + c) % c = (pos + c) % c := by rwa [Nat.add_mod_right, Nat.add_mod_right]
    have := Counter.window_inj (d := s.queue.dequeuePos) (by omega) (by omega) (by omega) (by omega) hmod'
    omega

end Life

/-! ## The log -/

variable {log : List (TicketEvent Tid Nat T)} {e : TicketEvent Tid Nat T}

theorem history_own (h : e.ticket = k) : history (log ++ [e]) k = history log k ++ [e] := by
  simp [history, h]

theorem history_other (h : e.ticket ≠ k) : history (log ++ [e]) k = history log k := by
  simp [history, h]

/-- A reachable state with its log. -/
structure Recorded [Elem T] (c : Nat) (s : State Tid Nat T) (log : List (TicketEvent Tid Nat T)) : Prop where
  inv : Inv c s
  life : ∀ k, Life c s k (history log k)
  pushes : pushClaims log = List.range s.queue.enqueuePos
  pops : popClaims log = List.range s.queue.dequeuePos

theorem pushClaims_append {N : Type} (l₁ l₂ : List (TicketEvent Tid N T)) :
    pushClaims (l₁ ++ l₂) = pushClaims l₁ ++ pushClaims l₂ := List.filterMap_append

theorem popClaims_append {N : Type} (l₁ l₂ : List (TicketEvent Tid N T)) :
    popClaims (l₁ ++ l₂) = popClaims l₁ ++ popClaims l₂ := List.filterMap_append

variable [Elem T]

theorem life_snoc (h1 : ∀ k, k ≠ e.ticket → Life c s k (history log k))
    (h2 : Life c s e.ticket (history log e.ticket ++ [e])) (k : Nat) : Life c s k (history (log ++ [e]) k) := by
  by_cases hk : k = e.ticket
  · subst hk; rw [history_own rfl]; exact h2
  · rw [history_other (Ne.symm hk)]; exact h1 k hk

variable [DecidableEq Tid] {t : Tid} {q' : NatQueue T} {f : Frame Nat T}

theorem Recorded.quiet (h : Recorded c s log) (hI : Inv c ⟨q', Function.update s.pc t f⟩)
    (he : q'.enqueuePos = s.queue.enqueuePos) (hd : q'.dequeuePos = s.queue.dequeuePos)
    (hcells : q'.cells = s.queue.cells) (h1 : pushTicket (s.pc t) = none) (h2 : popTicket (s.pc t) = none)
    (h3 : popTicket f = none) : Recorded c ⟨q', Function.update s.pc t f⟩ (log ++ []) := by
  have hcell : ∀ k, q'.cell c k = s.queue.cell c k := fun k => congrFun hcells _
  rw [List.append_nil]
  refine ⟨hI, fun k => ?_, by rw [he]; exact h.pushes, by rw [hd]; exact h.pops⟩
  exact (h.life k).other h.inv (Nat.le_of_eq he.symm) (fun hk => he ▸ hk) (Nat.le_of_eq hd.symm) (fun hk => hd ▸ hk)
    (by rw [h1]; simp) (by rw [h2]; simp) (by rw [h3]; simp) (fun _ _ => hcell k) fun _ _ => hcell k

theorem Recorded.snoc (h : Recorded c s log) (hI : Inv c ⟨q', Function.update s.pc t f⟩)
    (he : q'.enqueuePos = s.queue.enqueuePos) (hd : q'.dequeuePos = s.queue.dequeuePos)
    (hev : e.pushClaim = none) (hev' : e.popClaim = none)
    (hother : ∀ k, k ≠ e.ticket → Life c ⟨q', Function.update s.pc t f⟩ k (history log k))
    (hown : Life c ⟨q', Function.update s.pc t f⟩ e.ticket (history log e.ticket ++ [e])) :
    Recorded c ⟨q', Function.update s.pc t f⟩ (log ++ [e]) := by
  refine ⟨hI, life_snoc hother hown, ?_, ?_⟩
  · rw [pushClaims_append, h.pushes]
    simp [pushClaims, hev, he]
  · rw [popClaims_append, h.pops]
    simp [popClaims, hev', hd]

theorem Recorded.pushed (h : Recorded c s log) (hI : Inv c ⟨q', Function.update s.pc t f⟩)
    (hpos : pushTicket (s.pc t) = some e.ticket) (hnone : popTicket (s.pc t) = none) (h1 : s.queue.dequeuePos ≤ e.ticket)
    (h2 : e.ticket < s.queue.enqueuePos) (he : q'.enqueuePos = s.queue.enqueuePos)
    (hd : q'.dequeuePos = s.queue.dequeuePos) (hcell : ∀ j, j % c ≠ e.ticket % c → q'.cell c j = s.queue.cell c j)
    (hf : popTicket f = none) (hev : e.pushClaim = none) (hev' : e.popClaim = none)
    (hown : Life c ⟨q', Function.update s.pc t f⟩ e.ticket (history log e.ticket ++ [e])) :
    Recorded c ⟨q', Function.update s.pc t f⟩ (log ++ [e]) :=
  h.snoc hI he hd hev hev' (fun k hk => (h.life k).beside_push h.inv hpos hnone h1 h2 he hd hcell hf hk) hown

theorem Recorded.popped (h : Recorded c s log) (hI : Inv c ⟨q', Function.update s.pc t f⟩)
    (hpos : popTicket (s.pc t) = some e.ticket) (hnone : pushTicket (s.pc t) = none)
    (he : q'.enqueuePos = s.queue.enqueuePos) (hd : q'.dequeuePos = s.queue.dequeuePos)
    (hcell : ∀ j, j % c ≠ e.ticket % c → q'.cell c j = s.queue.cell c j)
    (hf : popTicket f = none ∨ popTicket f = some e.ticket) (hev : e.pushClaim = none) (hev' : e.popClaim = none)
    (hown : Life c ⟨q', Function.update s.pc t f⟩ e.ticket (history log e.ticket ++ [e])) :
    Recorded c ⟨q', Function.update s.pc t f⟩ (log ++ [e]) :=
  h.snoc hI he hd hev hev' (fun k hk => (h.life k).beside_pop h.inv hpos hnone he hd hcell hf hk) hown

variable {backoff : Nat → Nat}

theorem Recorded.act {m : Move} (hc : 2 ≤ c) (h : Recorded c s log) (hm : m ≠ .throws)
    (ha : s.queue.Acts backoff c m (s.pc t) q' f) :
    Recorded c ⟨q', Function.update s.pc t f⟩ (log ++ trace c s (.move t m)) := by
  have hI := h.inv.act hc ha
  have hf := h.inv.frames t
  generalize hpc : s.pc t = g at ha hf
  cases ha with
  | @claim arg pos spins he =>
    subst he
    rw [trace_claim hpc rfl]
    refine ⟨hI, life_snoc (fun k hk => ?_) ?_, ?_, ?_⟩
    · exact (h.life k).other h.inv (Nat.le_succ _) (fun hle => Nat.lt_of_le_of_ne hle (Ne.symm hk)) (Nat.le_refl _) id
        (by simp [hpc, pushTicket]) (by simp [hpc, popTicket]) (by simp [popTicket]) (fun _ _ => rfl) fun _ _ => rfl
    · have hl := (h.life s.queue.enqueuePos).at_unclaimed h.inv (Nat.le_refl _)
      show Life c _ s.queue.enqueuePos (history log s.queue.enqueuePos ++ _)
      rw [hl]
      exact Life.claimed (u := t) (Function.update_self ..)
    · rw [pushClaims_append, h.pushes]
      exact List.range_succ.symm
    · rw [popClaims_append, h.pops]
      exact List.append_nil _
  | @claimPop pos spins hd =>
    subst hd
    rw [trace_claimPop hpc rfl]
    have hseq : (s.queue.cell c s.queue.dequeuePos).sequence = s.queue.dequeuePos + 1 := by
      rcases hf with hf | hf
      · exact absurd hf (Nat.lt_irrefl _)
      · exact hf.2
    obtain ⟨hitem, -⟩ := h.inv.lap.item hc hseq
    refine ⟨hI, life_snoc (fun k hk => ?_) ?_, ?_, ?_⟩
    · exact (h.life k).other h.inv (Nat.le_refl _) id (Nat.le_succ _)
        (fun hle => Nat.lt_of_le_of_ne hle (Ne.symm hk)) (by simp [hpc, pushTicket]) (by simp [hpc, popTicket])
        (by simp only [popTicket]; intro he; cases he; exact hk rfl) (fun _ _ => rfl) fun _ _ => rfl
    · obtain ⟨u, v, hv, hl⟩ := (h.life s.queue.dequeuePos).at_item h.inv (Nat.le_refl _) hitem hseq
      show Life c _ s.queue.dequeuePos (history log s.queue.dequeuePos ++ _)
      rw [hl]
      exact .popClaimed (by simp) hv
    · rw [pushClaims_append, h.pushes]
      exact List.append_nil _
    · rw [popClaims_append, h.pops]
      exact List.range_succ.symm
  | @construct arg pos =>
    obtain ⟨h1, h2, -⟩ := hf
    have htr : trace c s (.move t .go) = [.constructed t pos arg] := by simp only [trace, hpc]
    rw [htr]
    refine h.pushed hI (by rw [hpc]; rfl) (by rw [hpc]; rfl) h1 h2 rfl rfl (fun j hj => cell_place_ne _ _ hj) rfl rfl rfl ?_
    show Life c _ pos (history log pos ++ _)
    rw [(h.life pos).at_construct h.inv hpc]
    exact .constructed (by simp) (by simp [cell_place_self])
  | @publish arg pos =>
    obtain ⟨h1, h2, -⟩ := hf
    have htr : trace c s (.move t .go) = [.published t pos] := by simp only [trace, hpc]
    rw [htr]
    refine h.pushed hI (by rw [hpc]; rfl) (by rw [hpc]; rfl) h1 h2 rfl rfl (fun j hj => cell_store_ne _ _ hj) rfl rfl rfl ?_
    show Life c _ pos (history log pos ++ _)
    obtain ⟨v, hv, hl⟩ := (h.life pos).at_publish h.inv hpc
    rw [hl]
    exact .published h1 h2 (by rw [cell_store_self]; rfl) (by rw [cell_store_self]; exact hv)
  | @moveOut pos value hval =>
    have htr : trace c s (.move t .go) = [.movedOut t pos value] := by simp only [trace, hpc, hval]
    rw [htr]
    refine h.popped hI (by rw [hpc]; rfl) (by rw [hpc]; rfl) rfl rfl (fun j hj => cell_place_ne _ _ hj) (.inr rfl) rfl rfl ?_
    show Life c _ pos (history log pos ++ _)
    obtain ⟨u, v, hv, hl⟩ := (h.life pos).at_moveOut h.inv hpc
    obtain rfl : v = value := by rw [← hval, hv]; rfl
    rw [hl]
    exact .movedOut (.inl (by simp))
  | @destroy pos out =>
    have htr : trace c s (.move t .go) = [] := by simp only [trace, hpc]
    rw [htr, List.append_nil]
    refine ⟨hI, fun k => ?_, h.pushes, h.pops⟩
    by_cases hk : k = pos
    · subst hk
      obtain ⟨u, hl⟩ := (h.life k).at_hold h.inv (.inl hpc)
      rw [hl]
      exact .movedOut (.inr (by simp))
    · exact (h.life k).beside_pop h.inv (by rw [hpc]; rfl) (by rw [hpc]; rfl) rfl rfl (fun j hj => cell_place_ne _ _ hj)
        (.inr rfl) hk
  | @release pos out =>
    have htr : trace c s (.move t .go) = [.released t pos out] := by simp only [trace, hpc]
    rw [htr]
    refine h.popped hI (by rw [hpc]; rfl) (by rw [hpc]; rfl) rfl rfl (fun j hj => cell_store_ne _ _ hj) (.inl rfl) rfl rfl ?_
    show Life c _ pos (history log pos ++ _)
    obtain ⟨u, hl⟩ := (h.life pos).at_hold h.inv (.inr hpc)
    rw [hl]
    refine .released hf.1 (fun w hw => ?_) fun _ => ?_
    · by_cases hwt : w = t
      · subst hwt; simp [popTicket] at hw
      · simp only [Function.update_of_ne hwt] at hw
        exact hwt (h.inv.poppers w t pos hw (by rw [hpc]; rfl))
    · rw [cell_store_self]
      show pos + c ≠ pos + 1
      omega
  | constructThrows => exact absurd rfl hm
  | moveOutThrows => exact absurd rfl hm
  | lost hl =>
    rw [trace_lost hpc hl]
    exact h.quiet hI rfl rfl rfl (by rw [hpc]; rfl) (by rw [hpc]; rfl) rfl
  | lostPop hl =>
    rw [trace_lostPop hpc hl]
    exact h.quiet hI rfl rfl rfl (by rw [hpc]; rfl) (by rw [hpc]; rfl) rfl
  | _ =>
    simp only [trace, hpc]
    exact h.quiet hI rfl rfl rfl (by rw [hpc]; rfl) (by rw [hpc]; rfl) rfl

theorem Recorded.step {s' : State Tid Nat T} {a : Label Tid T} (hc : 2 ≤ c) (h : Recorded c s log)
    (hs : Atomic.step backoff c false s a = some s') : Recorded c s' (log ++ trace c s a) := by
  have hI := h.inv.step hc hs
  cases step_spec hs with
  | @call t op hpc =>
    exact h.quiet hI rfl rfl rfl (by rw [hpc]; rfl) (by rw [hpc]; rfl) (by cases op <;> rfl)
  | move hm ha => exact h.act hc (fun he => Bool.noConfusion (hm he)) ha
  | ret hpc => exact h.quiet hI rfl rfl rfl (by rw [hpc]; rfl) (by rw [hpc]; rfl) rfl

variable (Tid T) in
def natMachine (backoff : Nat → Nat) (c : Nat) :
    Machine (State Tid Nat T × List (TicketEvent Tid Nat T)) (Label Tid T) :=
  (machine Tid Nat T backoff c false).logged (trace c)

theorem recorded_reachable {x : State Tid Nat T × List (TicketEvent Tid Nat T)} (hc : 2 ≤ c)
    (h : (natMachine Tid T backoff c).Reachable x) : Recorded c x.1 x.2 := by
  refine h.invariant (I := fun x => Recorded c x.1 x.2) ?_ ?_
  · exact ⟨Inv.start, fun k => .unclaimed (Nat.zero_le k), rfl, rfl⟩
  · intro x a x' _ hI hs
    obtain ⟨h1, h2⟩ := Machine.logged_step.mp hs
    rw [h2]
    exact hI.step hc h1

end Yutil.Atomic
