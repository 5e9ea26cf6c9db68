import Yutil.AtomicQueue

/-!
# Tickets of the atomic queues

The queue over natural-number counters. Between `dequeuePos` and
`dequeuePos + capacity` each cell belongs to one ticket, and its sequence
number says how far that ticket is: claimed or published below `enqueuePos`,
free or still held by the pop of the previous lap above it. Threads that own a
ticket own its cell, and a stale position is always one that was passed.
-/

namespace Yutil.Atomic

open Interleave

variable {Tid T : Type} [DecidableEq Tid] [Elem T]

abbrev NatQueue (T : Type) := AtomicQueue Nat T

variable {c : Nat} {q : NatQueue T} {backoff : Nat → Nat}

/-! ## Cells -/

omit [Elem T] in
theorem cell_mod (q : NatQueue T) {j k : Nat} (h : j % c = k % c) : q.cell c j = q.cell c k := congrArg q.cells h

omit [Elem T] in
theorem cell_lap (q : NatQueue T) (k : Nat) : q.cell c (k + c) = q.cell c k := cell_mod q (Nat.add_mod_right k c)

omit [Elem T] in
theorem cell_store_self (q : NatQueue T) (k x : Nat) :
    (q.store c k x).cell c k = { q.cell c k with sequence := x } := Function.update_self ..

omit [Elem T] in
theorem cell_place_self (q : NatQueue T) (k : Nat) (x : Option T) :
    (q.place c k x).cell c k = { q.cell c k with storage := x } := Function.update_self ..

omit [Elem T] in
theorem cell_store_ne (q : NatQueue T) {j k : Nat} (x : Nat) (h : j % c ≠ k % c) :
    (q.store c k x).cell c j = q.cell c j := Function.update_of_ne h ..

omit [Elem T] in
theorem cell_place_ne (q : NatQueue T) {j k : Nat} (x : Option T) (h : j % c ≠ k % c) :
    (q.place c k x).cell c j = q.cell c j := Function.update_of_ne h ..

omit [Elem T] in
theorem sequence_place (q : NatQueue T) (j : Nat) (x : Option T) (k : Nat) :
    ((q.place c j x).cell c k).sequence = (q.cell c k).sequence := by
  by_cases h : k % c = j % c
  · rw [cell_mod _ h, cell_place_self, cell_mod q h]
  · rw [cell_place_ne q x h]

/-! ## The invariant -/

def pushTicket {N : Type} : Frame N T → Option N
  | .construct _ pos | .publish _ pos => some pos
  | _ => none

def popTicket {N : Type} : Frame N T → Option N
  | .moveOut pos | .destroy pos _ | .release pos _ => some pos
  | _ => none

def FrameOk (c : Nat) (q : NatQueue T) : Frame Nat T → Prop
  | .loadSequence _ pos _ => pos ≤ q.enqueuePos
  | .claim _ pos _ => pos < q.enqueuePos ∨ pos = q.enqueuePos ∧ (q.cell c pos).sequence = pos
  | .construct _ pos =>
    q.dequeuePos ≤ pos ∧ pos < q.enqueuePos ∧ (q.cell c pos).sequence = pos ∧ (q.cell c pos).storage = none
  | .publish _ pos =>
    q.dequeuePos ≤ pos ∧ pos < q.enqueuePos ∧ (q.cell c pos).sequence = pos ∧ (q.cell c pos).storage.isSome = true
  | .loadSequencePop pos _ => pos ≤ q.dequeuePos
  | .claimPop pos _ => pos < q.dequeuePos ∨ pos = q.dequeuePos ∧ (q.cell c pos).sequence = pos + 1
  | .moveOut pos | .destroy pos _ =>
    pos < q.dequeuePos ∧ q.enqueuePos ≤ pos + c ∧ (q.cell c pos).sequence = pos + 1 ∧
      (q.cell c pos).storage.isSome = true
  | .release pos _ =>
    pos < q.dequeuePos ∧ q.enqueuePos ≤ pos + c ∧ (q.cell c pos).sequence = pos + 1 ∧ (q.cell c pos).storage = none
  | _ => True

/-- The counters and the cells of the current lap. -/
structure Lap (c : Nat) (q : NatQueue T) : Prop where
  le : q.dequeuePos ≤ q.enqueuePos
  bound : q.enqueuePos ≤ q.dequeuePos + c
  claimed : ∀ k, q.dequeuePos ≤ k → k < q.enqueuePos → (q.cell c k).sequence = k ∨
    (q.cell c k).sequence = k + 1 ∧ (q.cell c k).storage.isSome = true
  free : ∀ k, q.enqueuePos ≤ k → k < q.dequeuePos + c → (q.cell c k).sequence = k ∧ (q.cell c k).storage = none ∨
    c ≤ k ∧ (q.cell c k).sequence + c = k + 1

structure Inv (c : Nat) (s : State Tid Nat T) : Prop where
  lap : Lap c s.queue
  frames : ∀ t, FrameOk c s.queue (s.pc t)
  pushers : ∀ t u k, pushTicket (s.pc t) = some k → pushTicket (s.pc u) = some k → t = u
  poppers : ∀ t u k, popTicket (s.pc t) = some k → popTicket (s.pc u) = some k → t = u

section
variable (hc : 2 ≤ c)

include hc

omit [Elem T] in
theorem Lap.room (h : Lap c q) (hs : (q.cell c q.enqueuePos).sequence = q.enqueuePos) :
    q.enqueuePos < q.dequeuePos + c ∧ (q.cell c q.enqueuePos).storage = none := by
  have hlt : q.enqueuePos < q.dequeuePos + c := by
    by_contra hfull
    have he : q.enqueuePos = q.dequeuePos + c := Nat.le_antisymm h.bound (Nat.le_of_not_lt hfull)
    rw [he, cell_lap] at hs
    have := h.claimed q.dequeuePos (Nat.le_refl _) (by omega)
    omega
  refine ⟨hlt, ?_⟩
  rcases h.free _ (Nat.le_refl _) hlt with hf | hf
  · exact hf.2
  · omega

omit [Elem T] in
theorem Lap.item (h : Lap c q) (hs : (q.cell c q.dequeuePos).sequence = q.dequeuePos + 1) :
    q.dequeuePos < q.enqueuePos ∧ (q.cell c q.dequeuePos).storage.isSome = true := by
  have hlt : q.dequeuePos < q.enqueuePos := by
    by_contra hempty
    have := h.free q.dequeuePos (by omega) (by omega)
    omega
  refine ⟨hlt, ?_⟩
  rcases h.claimed _ (Nat.le_refl _) hlt with hf | hf
  · omega
  · exact hf.2

omit [Elem T] in
/-- A step that changes the cell of ticket `i` only, where `i` is neither the
next push ticket's free cell nor the next pop ticket's published one, leaves
the frames of the other tickets as they were. -/
theorem FrameOk.touch {q' : NatQueue T} {i : Nat} {f : Frame Nat T} (hl : Lap c q) (hi : q.dequeuePos ≤ i)
    (hi' : i < q.dequeuePos + c) (he : q'.enqueuePos = q.enqueuePos) (hd : q'.dequeuePos = q.dequeuePos)
    (hcell : ∀ k, k % c ≠ i % c → q'.cell c k = q.cell c k)
    (hpush : i < q.enqueuePos ∨ (q.cell c i).sequence ≠ i)
    (hpop : q.enqueuePos ≤ i ∨ (q.cell c i).sequence ≠ i + 1)
    (hown : pushTicket f ≠ some i) (hown' : ∀ k, popTicket f = some k → k + c ≠ i) (h : FrameOk c q f) :
    FrameOk c q' f := by
  have other : ∀ k, q.dequeuePos ≤ k → k < q.dequeuePos + c → k ≠ i → q'.cell c k = q.cell c k := fun k h1 h2 hne =>
    hcell k fun hmod => hne (Counter.window_inj h1 h2 hi hi' hmod)
  have popped : ∀ pos, popTicket f = some pos → pos < q.dequeuePos → q.enqueuePos ≤ pos + c →
      q'.cell c pos = q.cell c pos := by
    intro pos hp h1 h2
    have := other (pos + c) (by have := hl.le; omega) (by omega) (hown' pos hp)
    rwa [cell_lap, cell_lap] at this
  cases f with
  | loadSequence arg pos spins => exact Nat.le_trans h (Nat.le_of_eq he.symm)
  | claim arg pos spins =>
    rcases h with h | ⟨rfl, h⟩
    · exact .inl (he ▸ h)
    · obtain ⟨hroom, -⟩ := hl.room hc h
      have hne : q.enqueuePos ≠ i := by
        rintro rfl
        rcases hpush with hp | hp
        · omega
        · exact hp h
      exact .inr ⟨he.symm, by rw [other _ hl.le hroom hne]; exact h⟩
  | construct arg pos =>
    obtain ⟨h1, h2, h3, h4⟩ := h
    have hb := hl.bound
    have hcl := other pos h1 (by omega) fun hp => hown (by rw [hp]; rfl)
    exact ⟨hd ▸ h1, he ▸ h2, by rw [hcl]; exact h3, by rw [hcl]; exact h4⟩
  | publish arg pos =>
    obtain ⟨h1, h2, h3, h4⟩ := h
    have hb := hl.bound
    have hcl := other pos h1 (by omega) fun hp => hown (by rw [hp]; rfl)
    exact ⟨hd ▸ h1, he ▸ h2, by rw [hcl]; exact h3, by rw [hcl]; exact h4⟩
  | loadSequencePop pos spins => exact Nat.le_trans h (Nat.le_of_eq hd.symm)
  | claimPop pos spins =>
    rcases h with h | ⟨rfl, h⟩
    · exact .inl (hd ▸ h)
    · obtain ⟨hitem, -⟩ := hl.item hc h
      have hne : q.dequeuePos ≠ i := by
        rintro rfl
        rcases hpop with hp | hp
        · omega
        · exact hp h
      exact .inr ⟨hd.symm, by rw [other _ (Nat.le_refl _) (by omega) hne]; exact h⟩
  | moveOut pos =>
    obtain ⟨h1, h2, h3, h4⟩ := h
    have hcl := popped pos rfl h1 h2
    exact ⟨hd ▸ h1, he ▸ h2, by rw [hcl]; exact h3, by rw [hcl]; exact h4⟩
  | destroy pos out =>
    obtain ⟨h1, h2, h3, h4⟩ := h
    have hcl := popped pos rfl h1 h2
    exact ⟨hd ▸ h1, he ▸ h2, by rw [hcl]; exact h3, by rw [hcl]; exact h4⟩
  | release pos out =>
    obtain ⟨h1, h2, h3, h4⟩ := h
    have hcl := popped pos rfl h1 h2
    exact ⟨hd ▸ h1, he ▸ h2, by rw [hcl]; exact h3, by rw [hcl]; exact h4⟩
  | _ => trivial

omit hc [Elem T] in
theorem Lap.touch {q' : NatQueue T} {i : Nat} (hl : Lap c q) (hi : q.dequeuePos ≤ i) (hi' : i < q.dequeuePos + c)
    (he : q'.enqueuePos = q.enqueuePos) (hd : q'.dequeuePos = q.dequeuePos)
    (hcell : ∀ k, k % c ≠ i % c → q'.cell c k = q.cell c k)
    (hclaimed : i < q.enqueuePos → (q'.cell c i).sequence = i ∨
      (q'.cell c i).sequence = i + 1 ∧ (q'.cell c i).storage.isSome = true)
    (hfree : q.enqueuePos ≤ i → (q'.cell c i).sequence = i ∧ (q'.cell c i).storage = none ∨
      c ≤ i ∧ (q'.cell c i).sequence + c = i + 1) : Lap c q' := by
  have other : ∀ k, q.dequeuePos ≤ k → k < q.dequeuePos + c → k ≠ i → q'.cell c k = q.cell c k := fun k h1 h2 hne =>
    hcell k fun hmod => hne (Counter.window_inj h1 h2 hi hi' hmod)
  refine ⟨by rw [he, hd]; exact hl.le, by rw [he, hd]; exact hl.bound, ?_, ?_⟩
  · rw [he, hd]
    intro k h1 h2
    by_cases hk : k = i
    · rw [hk]; exact hclaimed (hk ▸ h2)
    · rw [other k h1 (by have := hl.bound; omega) hk]; exact hl.claimed k h1 h2
  · rw [he, hd]
    intro k h1 h2
    by_cases hk : k = i
    · rw [hk]; exact hfree (hk ▸ h1)
    · rw [other k (by have := hl.le; omega) h2 hk]; exact hl.free k h1 h2

/-! ## Steps -/

omit hc [Elem T] in
theorem unique_update {ticket : Frame Nat T → Option Nat} {pc : Tid → Frame Nat T} {t : Tid} {f : Frame Nat T}
    (h : ∀ t u k, ticket (pc t) = some k → ticket (pc u) = some k → t = u)
    (hf : ∀ k, ticket f = some k → ∀ u, u ≠ t → ticket (pc u) ≠ some k) :
    ∀ t' u k, ticket (Function.update pc t f t') = some k → ticket (Function.update pc t f u) = some k → t' = u := by
  intro t' u k h1 h2
  by_cases ht : t' = t
  · by_cases hu : u = t
    · rw [ht, hu]
    · rw [ht, Function.update_self] at h1
      rw [Function.update_of_ne hu] at h2
      exact absurd h2 (hf k h1 u hu)
  · by_cases hu : u = t
    · rw [hu, Function.update_self] at h2
      rw [Function.update_of_ne ht] at h1
      exact absurd h1 (hf k h2 t' ht)
    · rw [Function.update_of_ne ht] at h1
      rw [Function.update_of_ne hu] at h2
      exact h t' u k h1 h2

variable {s : State Tid Nat T} {t : Tid} {f : Frame Nat T}

omit hc [Elem T] in
theorem Inv.keeps {q' : NatQueue T} (h : Inv c s) (hl : Lap c q') (ho : ∀ u, u ≠ t → FrameOk c q' (s.pc u))
    (hf : FrameOk c q' f) (h1 : pushTicket f = none ∨ pushTicket f = pushTicket (s.pc t))
    (h2 : popTicket f = none ∨ popTicket f = popTicket (s.pc t)) : Inv c ⟨q', Function.update s.pc t f⟩ := by
  refine ⟨hl, fun u => ?_, unique_update h.pushers fun k hk u hu hk' => ?_, unique_update h.poppers fun k hk u hu hk' => ?_⟩
  · by_cases hu : u = t
    · subst hu; simpa using hf
    · simpa [hu] using ho u hu
  · rcases h1 with h1 | h1
    · rw [h1] at hk; cases hk
    · exact hu (h.pushers u t k hk' (h1 ▸ hk))
  · rcases h2 with h2 | h2
    · rw [h2] at hk; cases hk
    · exact hu (h.poppers u t k hk' (h2 ▸ hk))

omit [Elem T] in
theorem Inv.claim {arg : T} (h : Inv c s) (hs : (s.queue.cell c s.queue.enqueuePos).sequence = s.queue.enqueuePos) :
    Inv c ⟨{ s.queue with enqueuePos := s.queue.enqueuePos + 1 },
      Function.update s.pc t (.construct arg s.queue.enqueuePos)⟩ := by
  obtain ⟨hroom, hnone⟩ := h.lap.room hc hs
  have hle := h.lap.le
  refine ⟨⟨Nat.le_succ_of_le hle, hroom, fun k h1 h2 => ?_, fun k h1 h2 => h.lap.free k (Nat.le_of_succ_le h1) h2⟩,
    fun u => ?_, unique_update h.pushers fun k hk u _ hk' => ?_, unique_update h.poppers fun k hk => ?_⟩
  · by_cases hk : k = s.queue.enqueuePos
    · exact .inl (by rw [hk]; exact hs)
    · exact h.lap.claimed k h1 (Nat.lt_of_le_of_ne (Nat.le_of_lt_succ h2) hk)
  · by_cases hu : u = t
    · subst hu
      simp only [Function.update_self]
      exact ⟨hle, Nat.lt_succ_self _, hs, hnone⟩
    · simp only [Function.update_of_ne hu]
      have hf := h.frames u
      -- a pop that still holds the cell of the ticket would show in its mark
      have popper : ∀ pos, s.queue.enqueuePos ≤ pos + c → (s.queue.cell c pos).sequence = pos + 1 →
          s.queue.enqueuePos + 1 ≤ pos + c := by
        intro pos h1 h2
        by_contra hlt
        have he : s.queue.enqueuePos = pos + c := by omega
        rw [he, cell_lap] at hs
        omega
      cases hpc : s.pc u with
      | loadSequence arg pos spins => rw [hpc] at hf; exact Nat.le_succ_of_le hf
      | claim arg pos spins =>
        rw [hpc] at hf
        refine .inl ?_
        show pos < s.queue.enqueuePos + 1
        rcases hf with hf | hf <;> omega
      | construct arg pos => rw [hpc] at hf; exact ⟨hf.1, Nat.lt_succ_of_lt hf.2.1, hf.2.2⟩
      | publish arg pos => rw [hpc] at hf; exact ⟨hf.1, Nat.lt_succ_of_lt hf.2.1, hf.2.2⟩
      | moveOut pos => rw [hpc] at hf; exact ⟨hf.1, popper pos hf.2.1 hf.2.2.1, hf.2.2⟩
      | destroy pos out => rw [hpc] at hf; exact ⟨hf.1, popper pos hf.2.1 hf.2.2.1, hf.2.2⟩
      | release pos out => rw [hpc] at hf; exact ⟨hf.1, popper pos hf.2.1 hf.2.2.1, hf.2.2⟩
      | _ => rw [hpc] at hf; exact hf
  · cases hk
    have hf := h.frames u
    cases hpc : s.pc u with
    | construct a p => rw [hpc] at hf hk'; cases hk'; exact absurd hf.2.1 (Nat.lt_irrefl _)
    | publish a p => rw [hpc] at hf hk'; cases hk'; exact absurd hf.2.1 (Nat.lt_irrefl _)
    | _ => rw [hpc] at hk'; cases hk'
  · cases hk

omit [Elem T] in
theorem Inv.claimPop (h : Inv c s)
    (hs : (s.queue.cell c s.queue.dequeuePos).sequence = s.queue.dequeuePos + 1) :
    Inv c ⟨{ s.queue with dequeuePos := s.queue.dequeuePos + 1 },
      Function.update s.pc t (.moveOut s.queue.dequeuePos)⟩ := by
  obtain ⟨hitem, hsome⟩ := h.lap.item hc hs
  have hb := h.lap.bound
  refine ⟨⟨hitem, ?_, fun k h1 h2 => h.lap.claimed k (Nat.le_of_succ_le h1) h2, fun k h1 h2 => ?_⟩,
    fun u => ?_, unique_update h.pushers fun k hk => ?_, unique_update h.poppers fun k hk u _ hk' => ?_⟩
  · show s.queue.enqueuePos ≤ s.queue.dequeuePos + 1 + c
    omega
  · simp only at h1 h2
    by_cases hk : k = s.queue.dequeuePos + c
    · refine .inr ⟨by omega, ?_⟩
      rw [hk]
      show (s.queue.cell c (s.queue.dequeuePos + c)).sequence + c = _
      rw [cell_lap]
      omega
    · exact h.lap.free k h1 (by omega)
  · by_cases hu : u = t
    · subst hu
      simp only [Function.update_self]
      exact ⟨Nat.lt_succ_self _, hb, hs, hsome⟩
    · simp only [Function.update_of_ne hu]
      have hf := h.frames u
      -- a push that has not published the item would show in its mark
      have pusher : ∀ pos, s.queue.dequeuePos ≤ pos → (s.queue.cell c pos).sequence = pos →
          s.queue.dequeuePos + 1 ≤ pos := by
        intro pos h1 h2
        by_contra hlt
        have he : pos = s.queue.dequeuePos := by omega
        rw [he] at h2
        omega
      cases hpc : s.pc u with
      | construct arg pos => rw [hpc] at hf; exact ⟨pusher pos hf.1 hf.2.2.1, hf.2⟩
      | publish arg pos => rw [hpc] at hf; exact ⟨pusher pos hf.1 hf.2.2.1, hf.2⟩
      | loadSequencePop pos spins => rw [hpc] at hf; exact Nat.le_succ_of_le hf
      | claimPop pos spins =>
        rw [hpc] at hf
        refine .inl ?_
        show pos < s.queue.dequeuePos + 1
        rcases hf with hf | hf <;> omega
      | moveOut pos => rw [hpc] at hf; exact ⟨Nat.lt_succ_of_lt hf.1, hf.2⟩
      | destroy pos out => rw [hpc] at hf; exact ⟨Nat.lt_succ_of_lt hf.1, hf.2⟩
      | release pos out => rw [hpc] at hf; exact ⟨Nat.lt_succ_of_lt hf.1, hf.2⟩
      | _ => rw [hpc] at hf; exact hf
  · cases hk
  · cases hk
    have hf := h.frames u
    cases hpc : s.pc u with
    | moveOut p => rw [hpc] at hf hk'; cases hk'; exact absurd hf.1 (Nat.lt_irrefl _)
    | destroy p o => rw [hpc] at hf hk'; cases hk'; exact absurd hf.1 (Nat.lt_irrefl _)
    | release p o => rw [hpc] at hf hk'; cases hk'; exact absurd hf.1 (Nat.lt_irrefl _)
    | _ => rw [hpc] at hk'; cases hk'

omit hc [Elem T] in
theorem FrameOk.close (h : FrameOk c q f) (b : Bool) : FrameOk c { q with closed := b } f := by
  cases f <;> exact h

omit hc [Elem T] in
theorem Lap.close (h : Lap c q) (b : Bool) : Lap c { q with closed := b } :=
  ⟨h.le, h.bound, h.claimed, h.free⟩

omit [Elem T] in
theorem Inv.pushed {q' : NatQueue T} {pos : Nat} (h : Inv c s) (ht : pushTicket (s.pc t) = some pos)
    (h1 : s.queue.dequeuePos ≤ pos) (h2 : pos < s.queue.enqueuePos) (hseq : (s.queue.cell c pos).sequence = pos)
    (he : q'.enqueuePos = s.queue.enqueuePos) (hd : q'.dequeuePos = s.queue.dequeuePos)
    (hcell : ∀ k, k % c ≠ pos % c → q'.cell c k = s.queue.cell c k)
    (hmark : (q'.cell c pos).sequence = pos ∨ (q'.cell c pos).sequence = pos + 1 ∧ (q'.cell c pos).storage.isSome = true)
    (hf : FrameOk c q' f) (hp : pushTicket f = none ∨ pushTicket f = some pos) (hp' : popTicket f = none) :
    Inv c ⟨q', Function.update s.pc t f⟩ := by
  have hb := h.lap.bound
  refine h.keeps (h.lap.touch h1 (by omega) he hd hcell (fun _ => hmark) fun hle => absurd hle (by omega)) ?_ hf
    (by rwa [ht]) (.inl hp')
  intro u hu
  refine (h.frames u).touch hc h.lap h1 (by omega) he hd hcell (.inl h2) (.inr (by omega)) (fun hpu => hu ?_) ?_
  · exact h.pushers u t pos hpu ht
  · intro k hk hki
    have hfu := h.frames u
    cases hpc : s.pc u with
    | moveOut p => rw [hpc] at hfu hk; cases hk; have := hfu.2.1; omega
    | destroy p o => rw [hpc] at hfu hk; cases hk; have := hfu.2.1; omega
    | release p o => rw [hpc] at hfu hk; cases hk; have := hfu.2.1; omega
    | _ => rw [hpc] at hk; cases hk

omit [Elem T] in
/-- A step on the cell of a claimed pop ticket by its owner; the cell is that
of the push ticket one lap ahead, which nobody can claim yet. -/
theorem Inv.popped {q' : NatQueue T} {pos : Nat} (h : Inv c s) (ht : popTicket (s.pc t) = some pos)
    (h1 : pos < s.queue.dequeuePos) (h2 : s.queue.enqueuePos ≤ pos + c)
    (hseq : (s.queue.cell c pos).sequence = pos + 1)
    (he : q'.enqueuePos = s.queue.enqueuePos) (hd : q'.dequeuePos = s.queue.dequeuePos)
    (hcell : ∀ k, k % c ≠ pos % c → q'.cell c k = s.queue.cell c k)
    (hmark : (q'.cell c pos).sequence = pos + c ∧ (q'.cell c pos).storage = none ∨ (q'.cell c pos).sequence = pos + 1)
    (hf : FrameOk c q' f) (hp : pushTicket f = none) (hp' : popTicket f = none ∨ popTicket f = some pos) :
    Inv c ⟨q', Function.update s.pc t f⟩ := by
  have hle := h.lap.le
  have hcell' : ∀ k, k % c ≠ (pos + c) % c → q'.cell c k = s.queue.cell c k := by rwa [Nat.add_mod_right]
  refine h.keeps (h.lap.touch (i := pos + c) (by omega) (by omega) he hd hcell' (fun hlt => absurd hlt (by omega)) fun _ => ?_)
    ?_ hf (.inl hp) (by rwa [ht])
  · rw [cell_lap]
    rcases hmark with hm | hm
    · exact .inl hm
    · exact .inr ⟨by omega, by omega⟩
  · intro u hu
    refine (h.frames u).touch (i := pos + c) hc h.lap (by omega) (by omega) he hd hcell' (.inr ?_) (.inl h2) ?_ ?_
    · rw [cell_lap]; omega
    · intro hpu
      have hfu := h.frames u
      cases hpc : s.pc u with
      | construct a p => rw [hpc] at hfu hpu; cases hpu; have := hfu.2.1; omega
      | publish a p => rw [hpc] at hfu hpu; cases hpu; have := hfu.2.1; omega
      | _ => rw [hpc] at hpu; cases hpu
    · intro k hk hki
      obtain rfl : k = pos := by omega
      exact hu (h.poppers u t k hk ht)

theorem Inv.act {q' : NatQueue T} {m : Move} (h : Inv c s) (ha : s.queue.Acts backoff c m (s.pc t) q' f) :
    Inv c ⟨q', Function.update s.pc t f⟩ := by
  have hf := h.frames t
  -- a step that leaves the queue as it is and owns no ticket after it
  have quiet : ∀ f', FrameOk c s.queue f' → pushTicket f' = none → popTicket f' = none →
      Inv c ⟨s.queue, Function.update s.pc t f'⟩ := fun f' h1 h2 h3 =>
    h.keeps h.lap (fun u _ => h.frames u) h1 (.inl h2) (.inl h3)
  generalize hpc : s.pc t = g at ha hf
  cases ha with
  | loadEnqueue => exact quiet _ (Nat.le_refl s.queue.enqueuePos) rfl rfl
  | lost => exact quiet _ (Nat.le_refl s.queue.enqueuePos) rfl rfl
  | loadDequeue => exact quiet _ (Nat.le_refl s.queue.dequeuePos) rfl rfl
  | lostPop => exact quiet _ (Nat.le_refl s.queue.dequeuePos) rfl rfl
  | @ready arg pos spins hd =>
    refine quiet _ ?_ rfl rfl
    have hseq : (s.queue.cell c pos).sequence = pos := by simp only [Counter.dif] at hd; omega
    rcases Nat.lt_or_eq_of_le hf with hlt | heq
    · exact .inl hlt
    · exact .inr ⟨heq, hseq⟩
  | @readyPop pos spins hd =>
    refine quiet _ ?_ rfl rfl
    have hseq : (s.queue.cell c pos).sequence = pos + 1 := by simp only [Counter.dif, Counter.plus] at hd; omega
    rcases Nat.lt_or_eq_of_le hf with hlt | heq
    · exact .inl hlt
    · exact .inr ⟨heq, hseq⟩
  | @claim arg pos spins he =>
    subst he
    rcases hf with hf | hf
    · exact absurd hf (Nat.lt_irrefl _)
    · exact h.claim hc hf.2
  | @claimPop pos spins he =>
    subst he
    rcases hf with hf | hf
    · exact absurd hf (Nat.lt_irrefl _)
    · exact h.claimPop hc hf.2
  | @construct arg pos =>
    obtain ⟨h1, h2, h3, h4⟩ := hf
    refine h.pushed hc (by rw [hpc]; rfl) h1 h2 h3 rfl rfl (fun k hk => cell_place_ne _ _ hk) (.inl ?_)
      ⟨h1, h2, ?_, ?_⟩ (.inr rfl) rfl <;> rw [cell_place_self]
    · exact h3
    · exact h3
    · rfl
  | @publish arg pos =>
    obtain ⟨h1, h2, h3, h4⟩ := hf
    refine h.pushed hc (by rw [hpc]; rfl) h1 h2 h3 rfl rfl (fun k hk => cell_store_ne _ _ hk) (.inr ?_) trivial
      (.inl rfl) rfl
    rw [cell_store_self]
    exact ⟨rfl, h4⟩
  | @moveOut pos value _ =>
    obtain ⟨h1, h2, h3, h4⟩ := hf
    refine h.popped hc (by rw [hpc]; rfl) h1 h2 h3 rfl rfl (fun k hk => cell_place_ne _ _ hk) (.inr ?_)
      ⟨h1, h2, ?_, ?_⟩ rfl (.inr rfl) <;> rw [cell_place_self]
    · exact h3
    · exact h3
    · rfl
  | @destroy pos out =>
    obtain ⟨h1, h2, h3, h4⟩ := hf
    refine h.popped hc (by rw [hpc]; rfl) h1 h2 h3 rfl rfl (fun k hk => cell_place_ne _ _ hk) (.inr ?_)
      ⟨h1, h2, ?_, ?_⟩ rfl (.inr rfl) <;> rw [cell_place_self]
    · exact h3
    · exact h3
  | @release pos out =>
    obtain ⟨h1, h2, h3, h4⟩ := hf
    refine h.popped hc (by rw [hpc]; rfl) h1 h2 h3 rfl rfl (fun k hk => cell_store_ne _ _ hk) (.inl ?_) trivial
      rfl (.inl rfl)
    rw [cell_store_self]
    exact ⟨rfl, h4⟩
  | exchangeClosed =>
    exact h.keeps (h.lap.close _) (fun u _ => (h.frames u).close _) trivial (.inl rfl) (.inl rfl)
  | _ => exact quiet _ trivial rfl rfl

theorem Inv.step {s' : State Tid Nat T} {throwing : Bool} {a : Label Tid T} (h : Inv c s)
    (hs : Atomic.step backoff c throwing s a = some s') : Inv c s' := by
  cases step_spec hs with
  | @call t op _ =>
    refine h.keeps h.lap (fun u _ => h.frames u) ?_ (.inl ?_) (.inl ?_) <;> cases op <;> trivial
  | move _ ha => exact h.act hc ha
  | ret _ => exact h.keeps h.lap (fun u _ => h.frames u) trivial (.inl rfl) (.inl rfl)

omit hc [Elem T] [DecidableEq Tid] in
theorem Inv.start : Inv c (⟨AtomicQueue.new Nat T, fun _ => .idle⟩ : State Tid Nat T) := by
  have hcell : ∀ k, k < c → (AtomicQueue.new Nat T).cell c k = ⟨k, none⟩ := by
    intro k hk
    show Cell.mk (k % c) none = _
    rw [Nat.mod_eq_of_lt hk]
  refine ⟨⟨Nat.le_refl 0, Nat.zero_le _, fun k _ hk => absurd hk (Nat.not_lt_zero k), fun k _ hk => ?_⟩,
    fun _ => trivial, fun t u k ht => absurd ht (by simp [pushTicket]), fun t u k ht => absurd ht (by simp [popTicket])⟩
  have hk : k < c := by simpa [AtomicQueue.new, Counter.ofNat] using hk
  exact .inl (by rw [hcell k hk]; exact ⟨rfl, rfl⟩)

theorem inv_reachable {throwing : Bool} (h : (machine Tid Nat T backoff c throwing).Reachable s) : Inv c s :=
  h.invariant Inv.start fun _ _ _ _ hi hs => hi.step hc hs

end

end Yutil.Atomic
