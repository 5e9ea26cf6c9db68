import Yutil.AtomicAnswers
import Yutil.AtomicSolo

/-!
# Closing the atomic queues

`emplace` reads `closed_` once, before it claims a ticket. A closed queue that
was seen empty stays empty exactly when no push is between the two, or when a
throwing pop has taken the next cell with it.
-/

namespace Yutil

open Interleave

namespace Atomic

/-- An `emplace` past its look at `closed_` that has not claimed a ticket. -/
def Admitted {N T : Type} : Frame N T → Prop
  | .loadEnqueue _ _ | .loadSequence _ _ _ | .claim _ _ _ => True
  | _ => False

theorem admitted_map {N M T : Type} (g : N → M) (f : Frame N T) : Admitted (f.map g) ↔ Admitted f := by
  cases f <;> exact Iff.rfl

def Unpaid {N T : Type} : Frame N T → Prop
  | .moveOut _ | .destroy _ _ | .release _ _ | .done _ (.popped (some _)) => False
  | _ => True

def ShowsClosed {T : Type} : Reply T → Prop
  | .isClosed true | .closed _ => True
  | _ => False

/-! ## The flag -/

section
variable {Tid N T : Type} [Counter N] [Elem T] {backoff : Nat → Nat} {c : Nat} {throwing : Bool} {s s' : State Tid N T}
  {a : Label Tid T} {q q' : AtomicQueue N T} {m : Move} {f f' : Frame N T}

theorem Acts_closed (h : q.Acts backoff c m f q' f') : (q.closed = true → q'.closed = true) ∧
    ∀ k r, f' = .done k r → ShowsClosed r → q'.closed = true := by
  cases h with
  | loadClosed =>
    refine ⟨id, fun k r he hr => ?_⟩
    cases he
    cases hq : q.closed with
    | true => rfl
    | false => rw [hq] at hr; exact hr.elim
  | exchangeClosed => exact ⟨fun _ => rfl, fun _ _ _ _ => rfl⟩
  | _ => exact ⟨id, fun k r he hr => by cases he <;> exact hr.elim⟩

variable [DecidableEq Tid] [DecidableEq N]

structure Seen (s : State Tid N T) : Prop where
  closed : ∀ t k r, s.pc t = .done k r → ShowsClosed r → s.queue.closed = true

theorem closed_stays (h : step backoff c throwing s a = some s') (hcl : s.queue.closed = true) :
    s'.queue.closed = true := by
  cases step_spec h with
  | move _ ha => exact (Acts_closed ha).1 hcl
  | _ => exact hcl

theorem Seen.step (h : Seen s) (hs : Atomic.step backoff c throwing s a = some s') : Seen s' := by
  refine ⟨fun t k r hpc hr => ?_⟩
  rcases (step_spec hs).frame t with hf | ⟨op, hf⟩ | hf | ⟨m, -, hf⟩
  · exact closed_stays hs (h.closed t k r (hf.symm.trans hpc) hr)
  · rw [hpc] at hf; cases op <;> cases hf
  · rw [hpc] at hf; cases hf
  · rw [hpc] at hf
    exact (Acts_closed hf).2 k r rfl hr

theorem seen_reachable (h : (machine Tid N T backoff c throwing).Reachable s) : Seen s :=
  h.invariant ⟨fun _ _ _ hpc => by cases hpc⟩ fun _ _ _ _ hI hs => hI.step hs

end

/-! ## Nothing comes after -/

/-- The cell of the next push ticket is not free, and no pop is left that would
free it: the pop that claimed it threw. -/
def Lost {Tid N T : Type} [Counter N] (c : Nat) (s : State Tid N T) : Prop :=
  (s.queue.cell c s.queue.enqueuePos).sequence ≠ s.queue.enqueuePos ∧
    ∀ u k, popTicket (s.pc u) = some k → Counter.plus k c ≠ s.queue.enqueuePos

section
variable {Tid T : Type} [Elem T] {backoff : Nat → Nat} {w c : Nat} {s s' : State Tid Nat T} {a : Label Tid T} {t : Tid}

/-- Closed, with every claimed push ticket popped, and no thread left that would
claim one or that finds a cell for it. -/
structure Shut (w c : Nat) (s : State Tid Nat T) : Prop where
  inv : Inv c s
  near : ∀ u, Near w c s.queue (s.pc u)
  closed : s.queue.closed = true
  empty : s.queue.enqueuePos = s.queue.dequeuePos
  pushers : ∀ u, pushTicket (s.pc u) = none
  barred : (∀ u, ¬ Admitted (s.pc u)) ∨ Lost c s

structure Shut.Keeps (c : Nat) (q q' : NatQueue T) (f f' : Frame Nat T) : Prop where
  closed : q'.closed = true
  enqueuePos : q'.enqueuePos = q.enqueuePos
  dequeuePos : q'.dequeuePos = q.dequeuePos
  pushTicket : pushTicket f' = none
  admitted : Admitted f' → Admitted f
  popTicket : ∀ k, popTicket f' = some k → popTicket f = some k
  unpaid : Unpaid f → Unpaid f'
  cell : (∀ k, Atomic.popTicket f = some k → k + c ≠ q.enqueuePos) →
    (q'.cell c q.enqueuePos).sequence = (q.cell c q.enqueuePos).sequence

theorem Shut.act (h : Shut w c s) (hc : 2 ≤ c) {m : Move} {q : NatQueue T} {f : Frame Nat T}
    (ha : s.queue.Acts backoff c m (s.pc t) q f) : Shut.Keeps c s.queue q (s.pc t) f := by
  have hf := h.inv.frames t
  have hpush := h.pushers t
  have hcl := h.closed
  have hbarred : ¬ Admitted (s.pc t) ∨ (s.queue.cell c s.queue.enqueuePos).sequence ≠ s.queue.enqueuePos :=
    h.barred.imp (fun hno => hno t) fun hlost => hlost.1
  -- the number of another cell
  have stored : ∀ pos x, s.queue.enqueuePos ≤ pos + c → pos < s.queue.enqueuePos → pos + c ≠ s.queue.enqueuePos →
      ((s.queue.store c pos x).cell c s.queue.enqueuePos).sequence = (s.queue.cell c s.queue.enqueuePos).sequence := by
    intro pos x h1 h2 h3
    rw [cell_store_ne]
    intro hmod
    have := Counter.lap_le hmod h2
    omega
  generalize s.pc t = g at ha hf hpush hbarred
  cases ha with
  | admitted ho => rw [hcl] at ho; cases ho
  | claim he =>
    subst he
    rcases hf with hf | hf
    · exact absurd hf (Nat.lt_irrefl _)
    · rcases hbarred with hno | hlost
      · exact absurd trivial hno
      · exact absurd hf.2 hlost
  | construct | constructThrows | publish => cases hpush
  | claimPop he =>
    subst he
    rcases hf with hf | hf
    · exact absurd hf (Nat.lt_irrefl _)
    · have := (h.inv.lap.item hc hf.2).1
      have := h.empty
      omega
  | moveOut => exact ⟨hcl, rfl, rfl, rfl, id, fun _ => id, fun hu => hu.elim, fun _ => sequence_place ..⟩
  | destroy => exact ⟨hcl, rfl, rfl, rfl, id, fun _ => id, fun hu => hu.elim, fun _ => sequence_place ..⟩
  | @release pos out =>
    refine ⟨hcl, rfl, rfl, rfl, id, fun _ hk => (by cases hk), fun hu => hu.elim, fun hk => stored pos _ hf.2.1 ?_ (hk pos rfl)⟩
    have := hf.1
    have := h.empty
    omega
  | exchangeClosed => exact ⟨rfl, rfl, rfl, rfl, id, fun _ hk => (by cases hk), fun _ => trivial, fun _ => rfl⟩
  | moveOutThrows => exact ⟨hcl, rfl, rfl, rfl, id, fun _ hk => (by cases hk), fun hu => hu.elim, fun _ => rfl⟩
  | _ => exact ⟨hcl, rfl, rfl, rfl, fun hadm => (by first | exact trivial | exact hadm.elim), fun _ hk => (by cases hk), fun _ => trivial, fun _ => rfl⟩

omit [Elem T] in
theorem lost_word (hI : Inv c s) (hpow : ∃ j, j < w ∧ c = 2 ^ j) : Lost c (s.map (word w)) ↔ Lost c s := by
  have hsized := Sized.mk hI.lap hpow
  have hpos := hsized.pos
  obtain ⟨-, h1, h2⟩ := hsized.half
  have hle := hI.lap.le
  have hseq : ((s.map (word w)).queue.cell c (s.map (word w)).queue.enqueuePos).sequence = (s.map (word w)).queue.enqueuePos ↔
      (s.queue.cell c s.queue.enqueuePos).sequence = s.queue.enqueuePos := by
    have hlow := (hI.lap.le_sequence hpos (Nat.le_refl s.queue.enqueuePos)).1
    have hcell : ((s.map (word w)).queue.cell c (s.map (word w)).queue.enqueuePos).sequence =
        word w (s.queue.cell c s.queue.enqueuePos).sequence := congrArg Cell.sequence (hsized.cell s.queue.enqueuePos)
    rw [hcell]
    have := hI.lap.sequence_le hpos s.queue.enqueuePos
    rcases Nat.le_total s.queue.enqueuePos (s.queue.cell c s.queue.enqueuePos).sequence with h | h
    · exact Counter.word_eq h (by omega)
    · rw [eq_comm, eq_comm (a := (s.queue.cell c s.queue.enqueuePos).sequence)]
      exact Counter.word_eq h (by omega)
  have hpops : ∀ u, (∀ k, popTicket ((s.map (word w)).pc u) = some k → Counter.plus k c ≠ (s.map (word w)).queue.enqueuePos) ↔
      ∀ k, popTicket (s.pc u) = some k → Counter.plus k c ≠ s.queue.enqueuePos := by
    intro u
    have hpc : popTicket ((s.map (word w)).pc u) = (popTicket (s.pc u)).map (word w) := popTicket_map (word w) (s.pc u)
    rw [hpc]
    cases hk : popTicket (s.pc u) with
    | none => simp
    | some k =>
      obtain ⟨g1, g2, -⟩ := Life.pop_bounds hI hk
      have hiff : Counter.plus (word w k) c = (s.map (word w)).queue.enqueuePos ↔ Counter.plus k c = s.queue.enqueuePos := by
        rw [Counter.plus_word]
        exact Counter.word_eq g2 (by omega)
      simp [hiff]
  simp only [Lost, ne_eq, hseq, hpops]

variable [DecidableEq Tid] {throwing : Bool}

theorem Shut.step (h : Shut w c s) (hc : 2 ≤ c) (hpow : ∃ j, j < w ∧ c = 2 ^ j)
    (hs : Atomic.step backoff c throwing s a = some s') : Shut w c s' ∧ ∀ u, Unpaid (s.pc u) → Unpaid (s'.pc u) := by
  have hI := h.inv.step hc hs
  obtain ⟨-, hhalf, -⟩ := (Sized.mk h.inv.lap hpow).half
  -- one thread gets a frame
  have moved : ∀ (q : NatQueue T) (t : Tid) (f : Frame Nat T), Inv c ⟨q, Function.update s.pc t f⟩ →
      Shut.Keeps c s.queue q (s.pc t) f → Near w c q f →
      Shut w c ⟨q, Function.update s.pc t f⟩ ∧ ∀ u, Unpaid (s.pc u) → Unpaid (Function.update s.pc t f u) := by
    intro q t f hI hk hn
    have others : ∀ (P : Frame Nat T → Prop) u, P (s.pc u) → (u = t → P f) → P (Function.update s.pc t f u) := by
      intro P u h1 h2
      by_cases hu : u = t
      · subst hu; rw [Function.update_self]; exact h2 rfl
      · rw [Function.update_of_ne hu]; exact h1
    refine ⟨⟨hI, fun u => ?_, hk.closed, (hk.enqueuePos.trans h.empty).trans hk.dequeuePos.symm, fun u => ?_, ?_⟩, fun u hu => ?_⟩
    · refine others (Near w c q) u ?_ fun _ => hn
      have := h.near u
      rw [near_iff] at this ⊢
      rwa [hk.enqueuePos, hk.dequeuePos]
    · exact others (fun f => pushTicket f = none) u (h.pushers u) fun _ => hk.pushTicket
    · refine h.barred.imp (fun hno u => ?_) fun hlost => ⟨?_, fun u k => ?_⟩
      · exact others (fun f => ¬ Admitted f) u (hno u) fun _ hadm => hno t (hk.admitted hadm)
      · show (q.cell c q.enqueuePos).sequence ≠ q.enqueuePos
        rw [hk.enqueuePos, hk.cell fun k => hlost.2 t k]
        exact hlost.1
      · show _ → k + c ≠ q.enqueuePos
        rw [hk.enqueuePos]
        exact others (fun f => popTicket f = some k → k + c ≠ s.queue.enqueuePos) u (hlost.2 u k) fun _ hpop =>
          hlost.2 t k (hk.popTicket k hpop)
    · exact others Unpaid u hu fun he => hk.unpaid (he ▸ hu)
  cases step_spec hs with
  | @call t op hpc =>
    refine moved s.queue t _ hI ⟨h.closed, rfl, rfl, ?_, ?_, ?_, fun _ => ?_, fun _ => rfl⟩ ?_
    · cases op <;> rfl
    · cases op <;> exact False.elim
    · cases op <;> exact fun _ hk => by cases hk
    · cases op <;> trivial
    · cases op <;> trivial
  | @ret t k r hpc =>
    exact moved s.queue t .idle hI ⟨h.closed, rfl, rfl, rfl, False.elim, fun _ hk => (by cases hk), fun _ => trivial, fun _ => rfl⟩ trivial
  | @move t m q f _ ha =>
    have hk := h.act hc ha
    refine moved q t f hI hk ?_
    have hn := near_iff.mp (h.near t)
    rw [near_iff, hk.enqueuePos, hk.dequeuePos]
    exact hn.act (by omega) (by omega) ha

variable {y : State Tid Nat T × List (TicketEvent Tid Nat T)}

theorem Shut.exec (h : Shut w c y.1) (hc : 2 ≤ c) (hpow : ∃ j, j < w ∧ c = 2 ^ j) {as : List (Label Tid T)}
    {x : State Tid (BitVec w) T × List (TicketEvent Tid (BitVec w) T)}
    (hx : ((machine Tid (BitVec w) T backoff c throwing).logged (trace c)).execFrom (words w y) as = some x) :
    ∃ y', Shut w c y'.1 ∧ x = words w y' ∧
      (∀ u, Unpaid (y.1.pc u) → Unpaid (y'.1.pc u)) := by
  induction as generalizing y with
  | nil => cases hx; exact ⟨y, h, rfl, fun _ => id⟩
  | cons a as ih =>
    obtain ⟨x₁, hx₁, hr⟩ := Machine.execFrom_cons_some hx
    rw [logged_word h.inv ⟨h.inv.lap, hpow⟩ h.near] at hx₁
    obtain ⟨y₁, hy₁, rfl⟩ := Option.map_eq_some_iff.mp hx₁
    obtain ⟨g1, g2⟩ := h.step hc hpow (Machine.logged_step.mp hy₁).1
    obtain ⟨y', e1, e2, e3⟩ := ih g1 hr
    exact ⟨y', e1, e2, fun u hu => e3 u (g2 u hu)⟩

end
/-! ## Something may come after -/

section
variable {T : Type} [Elem T] {backoff : Nat → Nat} {c k : Nat} {q : NatQueue T} {f : Frame Nat T}

theorem finish_pop (backoff : Nat → Nat) (hk : popTicket f = some k) : ∃ ms q' r, (∀ m ∈ ms, m ≠ .throws) ∧
    q.acts backoff c f ms = some (q', .done (some k) r) ∧ (q'.cell c k).sequence = k + c ∧
    q'.enqueuePos = q.enqueuePos ∧ q'.dequeuePos = q.dequeuePos ∧ q'.closed = q.closed := by
  have hstore : ∀ (q : NatQueue T), ((q.store c k (k + c)).cell c k).sequence = k + c := fun q => by
    rw [cell_store_self]
  cases f with
  | moveOut pos =>
    cases hk
    exact ⟨[.go, .go, .go], _, _, by simp, rfl, hstore _, rfl, rfl, rfl⟩
  | destroy pos out =>
    cases hk
    exact ⟨[.go, .go], _, _, by simp, rfl, hstore _, rfl, rfl, rfl⟩
  | release pos out =>
    cases hk
    exact ⟨[.go], _, _, by simp, rfl, hstore _, rfl, rfl, rfl⟩
  | _ => cases hk

theorem reach_claim (backoff : Nat → Nat) (h : Lap c q) (hc : 0 < c) (he : q.enqueuePos = q.dequeuePos)
    (hf : FrameOk c q f) (ha : Admitted f) (hfree : (q.cell c q.enqueuePos).sequence = q.enqueuePos) :
    ∃ ms arg spins, (∀ m ∈ ms, m ≠ .throws) ∧
      q.acts backoff c f ms = some (q, .claim arg q.enqueuePos spins) := by
  have hdif : Counter.dif (q.cell c q.enqueuePos).sequence q.enqueuePos = 0 := by simp only [Counter.dif]; omega
  cases f with
  | loadEnqueue arg spins =>
    refine ⟨[.go, .go], arg, spins, by simp, ?_⟩
    simp only [AtomicQueue.acts, AtomicQueue.act, hdif, if_true, Option.bind_some]
  | loadSequence arg pos spins =>
    rcases Nat.lt_or_eq_of_le hf with hlt | rfl
    · have hp := h.passed_le hc (show pos < q.dequeuePos by omega)
      have hd : ¬ Counter.dif (q.cell c pos).sequence pos = 0 := by simp only [Counter.dif]; omega
      have hd' : ¬ Counter.dif (q.cell c pos).sequence pos < 0 := by simp only [Counter.dif]; omega
      refine ⟨[.go, .go, .go], arg, backoff spins, by simp, ?_⟩
      simp only [AtomicQueue.acts, AtomicQueue.act, hd, hd', hdif, if_true, if_false, Option.bind_some]
    · refine ⟨[.go], arg, spins, by simp, ?_⟩
      simp only [AtomicQueue.acts, AtomicQueue.act, hdif, if_true, Option.bind_some]
  | claim arg pos spins =>
    by_cases hpos : q.enqueuePos = pos
    · subst hpos
      exact ⟨[], arg, spins, by simp, rfl⟩
    · refine ⟨[.go, .go], arg, backoff spins, by simp, ?_⟩
      simp only [AtomicQueue.acts, AtomicQueue.act, hpos, hdif, if_true, if_false, Option.bind_some]
  | _ => exact ha.elim

theorem finish_push (backoff : Nat → Nat) (h : Lap c q) (hc : 0 < c) (he : q.enqueuePos = q.dequeuePos)
    (hf : FrameOk c q f) (ha : Admitted f) (hfree : (q.cell c q.enqueuePos).sequence = q.enqueuePos) :
    ∃ ms q' r, (∀ m ∈ ms, m ≠ .throws) ∧ q.acts backoff c f ms = some (q', .done (some q.enqueuePos) r) ∧
      (q'.cell c q.enqueuePos).sequence = q.enqueuePos + 1 ∧ q'.enqueuePos = q.enqueuePos + 1 ∧
      q'.dequeuePos = q.dequeuePos := by
  obtain ⟨ms, arg, spins, hms, hacts⟩ := reach_claim backoff h hc he hf ha hfree
  let q₁ : NatQueue T := { q with enqueuePos := q.enqueuePos + 1 }
  refine ⟨ms ++ [Move.go, .go, .go], (q₁.place c q.enqueuePos (some arg)).store c q.enqueuePos (q.enqueuePos + 1),
    .pushed true (Elem.moved arg), ?_, ?_, ?_, rfl, rfl⟩
  · intro m hm
    rcases List.mem_append.mp hm with hm | hm
    · exact hms m hm
    · simp at hm; rw [hm]; simp
  · rw [AtomicQueue.acts_append, hacts]
    simp only [AtomicQueue.acts, AtomicQueue.act, if_true, Option.bind_some]
    rfl
  · rw [cell_store_self]

variable {Tid : Type} [DecidableEq Tid] {s : State Tid Nat T} {t : Tid}

theorem take_ready (backoff : Nat → Nat) (throwing : Bool) (hr : (s.queue.cell c s.queue.dequeuePos).sequence = s.queue.dequeuePos + 1)
    {j : Option Nat} {r : Reply T} (hpc : s.pc t = .done j r) :
    ∃ after s' k v, (machine Tid Nat T backoff c throwing).execFrom s (.ret t :: .call t .tryPop :: after) = some s' ∧
      (∀ a ∈ after, a ≠ .ret t) ∧ s'.pc t = .done k (.popped (some v)) ∧ s'.queue.enqueuePos = s.queue.enqueuePos ∧
      s'.queue.dequeuePos = s.queue.dequeuePos + 1 := by
  have hready : Side.pop.Ready c s.queue (Side.pop.cursor s.queue) := by
    simp only [Side.Ready, Counter.dif, Side.mark, Counter.plus, Side.cursor]
    omega
  obtain ⟨q', k, r', hacts, hs, -⟩ := AtomicQueue.acts_ready backoff .pop default hready trivial
  have ht := ((AtomicQueue.acts_spec .pop hacts).1 hs).2
  cases r' with
  | popped out =>
    cases out with
    | none => exact hs.elim
    | some v =>
      let s₁ : State Tid Nat T := ⟨s.queue, Function.update s.pc t .idle⟩
      let s₂ : State Tid Nat T := ⟨s.queue, Function.update s₁.pc t (.loadDequeue 0)⟩
      have h1 : (machine Tid Nat T backoff c throwing).step s (.ret t) = some s₁ := by simp only [machine, step, hpc, s₁]
      have h2 : (machine Tid Nat T backoff c throwing).step s₁ (.call t .tryPop) = some s₂ := by
        simp only [machine, step, s₁, s₂, Function.update_self]
        rfl
      have hacts' : s₂.queue.acts backoff c (s₂.pc t) (List.replicate 6 .go) = some (q', .done k (.popped (some v))) := by
        simp only [s₂, Function.update_self]
        exact hacts
      have h3 := exec_of_acts (t := t) throwing (by simp) hacts'
      refine ⟨_, _, k, v, (Machine.execFrom_cons h1).trans ((Machine.execFrom_cons h2).trans h3), ?_,
        Function.update_self .., ht.other, ht.cursor⟩
      intro a ha
      obtain ⟨m, -, rfl⟩ := List.mem_map.mp ha
      simp
  | _ => exact hs.elim

/-- The other threads can put an item in front of thread `t`, when one is there or a push was admitted and will find a cell. -/
theorem reach_ready (backoff : Nat → Nat) (throwing : Bool) (hc : 2 ≤ c) (hI : Inv c s)
    (hposted : ∀ k, k < s.queue.enqueuePos → Posted c s.queue k) (ht : popTicket (s.pc t) = none ∧ ¬ Admitted (s.pc t))
    (h : ¬ (s.queue.enqueuePos = s.queue.dequeuePos ∧ ((∀ u, ¬ Admitted (s.pc u)) ∨ Lost c s))) :
    ∃ as s', (machine Tid Nat T backoff c throwing).execFrom s as = some s' ∧ s'.pc t = s.pc t ∧
      (s'.queue.cell c s'.queue.dequeuePos).sequence = s'.queue.dequeuePos + 1 ∧
      s'.queue.enqueuePos ≤ s.queue.enqueuePos + 1 ∧ s'.queue.dequeuePos = s.queue.dequeuePos := by
  have hle := hI.lap.le
  by_cases he : s.queue.enqueuePos = s.queue.dequeuePos
  · obtain ⟨hadm, hlost⟩ := not_or.mp fun hb => h ⟨he, hb⟩
    obtain ⟨u, hu⟩ : ∃ u, Admitted (s.pc u) := by simpa only [not_forall, not_not] using hadm
    have hut : t ≠ u := by rintro rfl; exact ht.2 hu
    -- once the next cell is free, the push can go on
    have push : ∀ s₁ : State Tid Nat T, Inv c s₁ → s₁.queue.enqueuePos = s₁.queue.dequeuePos →
        s₁.queue.enqueuePos = s.queue.enqueuePos → s₁.pc u = s.pc u → s₁.pc t = s.pc t →
        (s₁.queue.cell c s₁.queue.enqueuePos).sequence = s₁.queue.enqueuePos →
        ∃ as s', (machine Tid Nat T backoff c throwing).execFrom s₁ as = some s' ∧ s'.pc t = s.pc t ∧
          (s'.queue.cell c s'.queue.dequeuePos).sequence = s'.queue.dequeuePos + 1 ∧
          s'.queue.enqueuePos ≤ s.queue.enqueuePos + 1 ∧ s'.queue.dequeuePos = s.queue.dequeuePos := by
      intro s₁ hI h1 h2 h3 h4 h5
      obtain ⟨ms, q', r, hms, hacts, g1, g2, g3⟩ :=
        finish_push backoff hI.lap (by omega) h1 (hI.frames u) (by rw [h3]; exact hu) h5
      refine ⟨_, _, exec_of_acts throwing (fun m hm he => absurd he (hms m hm)) hacts, ?_, ?_, ?_, ?_⟩
      · simp only [Function.update_of_ne hut]; exact h4
      · show (q'.cell c q'.dequeuePos).sequence = q'.dequeuePos + 1
        rw [g3, ← h1, g1]
      · show q'.enqueuePos ≤ _
        omega
      · show q'.dequeuePos = _
        omega
    by_cases hfree : (s.queue.cell c s.queue.enqueuePos).sequence = s.queue.enqueuePos
    · exact push s hI he rfl rfl rfl hfree
    · -- the pop that holds the next cell goes first
      obtain ⟨v, k, hv, hk⟩ : ∃ v k, popTicket (s.pc v) = some k ∧ k + c = s.queue.enqueuePos := by
        by_contra hno
        exact hlost ⟨hfree, fun v k hv hk => hno ⟨v, k, hv, hk⟩⟩
      obtain ⟨ms, q', r, hms, hacts, g1, g2, g3, -⟩ := finish_pop (q := s.queue) (c := c) backoff hv
      have hvt : t ≠ v := by rintro rfl; rw [ht.1] at hv; cases hv
      have hvu : u ≠ v := by
        rintro rfl
        cases hpc : s.pc u <;> rw [hpc] at hv hu <;> first | exact hu.elim | cases hv
      have hex := exec_of_acts (s := s) (t := v) throwing (fun m hm he => absurd he (hms m hm)) hacts
      have hI' : Inv c ⟨q', Function.update s.pc v (.done (some k) r)⟩ :=
        Machine.execFrom_invariant (fun _ _ _ hi hs => hi.step hc hs) hI hex
      obtain ⟨as, s', h1, h2⟩ := push _ hI' (by simp only; omega) g2
        (Function.update_of_ne hvu ..) (Function.update_of_ne hvt ..) (by simp only; rw [g2, ← hk, cell_lap, g1])
      refine ⟨ms.map (.move v) ++ as, s', ?_, h2⟩
      rw [Machine.execFrom_append, hex]
      exact h1
  · exact ⟨[], s, rfl, rfl, (hposted _ (by omega)).2 (Nat.le_refl _), by omega, rfl⟩

end

/-! ## Published tickets, counted -/

section
variable {Tid N T : Type}

def TicketEvent.publish : TicketEvent Tid N T → Option N
  | .published _ k => some k
  | _ => none

def publishes (log : List (TicketEvent Tid N T)) : List N := log.filterMap (·.publish)

theorem publishes_map {w : Nat} (g : Nat → BitVec w) (log : List (TicketEvent Tid Nat T)) :
    publishes (log.map (TicketEvent.map g)) = (publishes log).map g := by
  simp only [publishes, List.filterMap_map, List.map_filterMap]
  refine congrFun (congrArg List.filterMap (funext fun e => ?_)) _
  cases e <;> rfl

end

section
variable {Tid T : Type} [DecidableEq Tid] [Elem T] {backoff : Nat → Nat} {c : Nat} {throwing : Bool} {s s' : State Tid Nat T}
  {a : Label Tid T} {log : List (TicketEvent Tid Nat T)}

structure Publishes (c : Nat) (s : State Tid Nat T) (log : List (TicketEvent Tid Nat T)) : Prop where
  nodup : (publishes log).Nodup
  posted : ∀ k ∈ publishes log, Posted c s.queue k

theorem Publishes.step (hc : 2 ≤ c) (h : Publishes c s log) (hI : Inv c s)
    (hs : Atomic.step backoff c throwing s a = some s') : Publishes c s' (log ++ trace c s a) := by
  have kept : ∀ k ∈ publishes log, Posted c s'.queue k := fun k hk => (h.posted k hk).step hc hI hs
  by_cases hpub : ∃ t arg k, a = .move t .go ∧ s.pc t = .publish arg k
  · obtain ⟨t, arg, k, rfl, hpc⟩ := hpub
    have hlog : publishes (log ++ trace c s (.move t .go)) = publishes log ++ [k] := by
      simp only [trace, hpc, publishes, List.filterMap_append]
      rfl
    obtain ⟨h1, h2, h3, -⟩ : FrameOk c s.queue (.publish arg k) := hpc ▸ hI.frames t
    have hposted : Posted c s'.queue k := by
      cases step_spec hs with
      | move _ ha =>
        rw [hpc] at ha
        cases ha with
        | publish =>
          refine ⟨h2, fun _ => ?_⟩
          rw [cell_store_self]
          rfl
    have hnot : k ∉ publishes log := fun hk => by
      have := (h.posted k hk).2 h1
      omega
    refine ⟨?_, ?_⟩ <;> rw [hlog]
    · exact h.nodup.append (List.nodup_singleton k) (List.disjoint_singleton.mpr hnot)
    · intro j hj
      rcases List.mem_append.mp hj with hj | hj
      · exact kept j hj
      · rw [List.mem_singleton.mp hj]
        exact hposted
  · have htr : publishes (trace c s a) = [] := by
      cases a with
      | move t m =>
        cases m with
        | go =>
          simp only [trace]
          cases hpc : s.pc t with
          | publish arg k => exact absurd ⟨t, arg, k, rfl, hpc⟩ hpub
          | claim arg pos spins => simp only; split <;> rfl
          | claimPop pos spins => simp only; split <;> rfl
          | _ => rfl
        | _ => rfl
      | _ => rfl
    have hlog : publishes (log ++ trace c s a) = publishes log := by
      rw [publishes, List.filterMap_append]
      exact (congrArg (publishes log ++ ·) htr).trans (List.append_nil _)
    exact ⟨hlog ▸ h.nodup, hlog ▸ kept⟩

theorem publishes_reachable {x : State Tid Nat T × List (TicketEvent Tid Nat T)} (hc : 2 ≤ c)
    (h : ((machine Tid Nat T backoff c throwing).logged (trace c)).Reachable x) : Publishes c x.1 x.2 := by
  refine h.invariant (I := fun x => Publishes c x.1 x.2) ?_ ?_
  · exact ⟨List.nodup_nil, fun k hk => by cases hk⟩
  · intro x a x' hx hI hs
    obtain ⟨h1, h2⟩ := Machine.logged_step.mp hs
    rw [h2]
    exact hI.step hc (inv_reachable hc (Machine.logged_reachable hx)) h1

omit [DecidableEq Tid] [Elem T] in
/-- When as many tickets are published as are claimed, all are. -/
theorem Publishes.all (h : Publishes c s log) (hlen : (publishes log).length = s.queue.enqueuePos) {k : Nat}
    (hk : k < s.queue.enqueuePos) : Posted c s.queue k := by
  have hsub : publishes log ⊆ List.range s.queue.enqueuePos := fun j hj => List.mem_range.mpr (h.posted j hj).1
  have hperm := (List.subperm_of_subset h.nodup hsub).perm_of_length_le (by rw [List.length_range, hlen])
  exact h.posted k (hperm.mem_iff.mpr (List.mem_range.mpr hk))

end

end Atomic

/-! ## The three versions -/

open Atomic

variable {Tid T : Type} [DecidableEq Tid] [Elem T] {fuel : Nat} {requested capacity : BitVec 64}

/-- Some `try_pop` that starts after `x` returns an item. -/
def LaterPop (version : AtomicVersion) (throwing : Bool) (capacity : BitVec 64)
    (x : State Tid (BitVec 64) T × List (TicketEvent Tid (BitVec 64) T)) : Prop :=
  ∃ before u after x' k v, (version.ticketed Tid T capacity throwing).execFrom x (before ++ .call u .tryPop :: after) = some x' ∧
    (∀ a ∈ after, a ≠ .ret u) ∧ x'.1.pc u = .done k (.popped (some v))

def HasSeenClosed {M : Machine (State Tid (BitVec 64) T × List (TicketEvent Tid (BitVec 64) T)) (Label Tid T)} {n : Nat}
    (r : Run M n) (t : Tid) (a : Nat) : Prop :=
  ∃ i k reply, i < a ∧ r.lab i = .ret t ∧ (r.st i).1.pc t = .done k reply ∧ ShowsClosed reply

theorem HasSeenClosed.closed {backoff : Nat → Nat} {c : Nat} {throwing : Bool} {n : Nat}
    {r : Run ((machine Tid (BitVec 64) T backoff c throwing).logged (trace c)) n} {t : Tid} {a : Nat} (h : HasSeenClosed r t a)
    (ha : a ≤ n) : (r.st n).1.queue.closed = true := by
  obtain ⟨i, k, reply, hi, -, hpc, hr⟩ := h
  have hcl := (seen_reachable (Machine.logged_reachable (r.reachable i (by omega)))).closed t k reply hpc hr
  exact r.persists (fun x => x.1.queue.closed = true) (show i ≤ n by omega) (fun j _ hj hcl =>
    closed_stays (Machine.logged_step.mp (r.step j hj)).1 hcl) hcl

theorem no_later_pop (version : AtomicVersion) (throwing : Bool) (hcap : normalizeCapacity fuel requested = some capacity)
    {y : State Tid Nat T × List (TicketEvent Tid Nat T)} (h : Shut 64 capacity.toNat y.1) :
    ¬ LaterPop version throwing capacity (words 64 y) := by
  rintro ⟨before, u, after, x', k, v, hx, -, hpc⟩
  obtain ⟨hc, hpow⟩ := AtomicVersion.capacity_spec hcap
  rw [AtomicVersion.ticketed_eq, Machine.execFrom_append, Option.bind_eq_some_iff] at hx
  obtain ⟨x₁, hx₁, hx⟩ := hx
  obtain ⟨y₁, h₁, rfl, -⟩ := h.exec hc hpow hx₁
  obtain ⟨x₂, hx₂, hx⟩ := Machine.execFrom_cons_some hx
  rw [logged_word h₁.inv ⟨h₁.inv.lap, hpow⟩ h₁.near] at hx₂
  obtain ⟨y₂, hy₂, rfl⟩ := Option.map_eq_some_iff.mp hx₂
  have s₁ : step version.backoff capacity.toNat throwing y₁.1 (.call u .tryPop) = some y₂.1 := (Machine.logged_step.mp hy₂).1
  obtain ⟨h₂, -⟩ := h₁.step hc hpow s₁
  have hunpaid : Unpaid (y₂.1.pc u) := by
    generalize y₂.1 = z at s₁ ⊢
    cases step_spec s₁ with
    | call _ => simp only [Function.update_self]; trivial
  obtain ⟨y', -, rfl, hun⟩ := h₂.exec hc hpow hx
  have hun := hun u hunpaid
  have hpc : (y'.1.pc u).map (word 64) = .done k (.popped (some v)) := hpc
  cases hf : y'.1.pc u with
  | done j r =>
    rw [hf] at hpc hun
    simp only [Frame.map, Frame.done.injEq] at hpc
    rw [hpc.2] at hun
    exact hun
  | _ => rw [hf] at hpc; cases hpc

theorem later_pop (version : AtomicVersion) (throwing : Bool) (hcap : normalizeCapacity fuel requested = some capacity)
    {y : State Tid Nat T × List (TicketEvent Tid Nat T)} (hI : Inv capacity.toNat y.1) (hroom : capacity.toNat < 2 ^ 63)
    (hs : ∀ u, Since (y.1.queue.enqueuePos + 1 + capacity.toNat - 2 ^ 63) (y.1.queue.dequeuePos + 1 + capacity.toNat - 2 ^ 63)
      (y.1.pc u)) (hposted : ∀ k, k < y.1.queue.enqueuePos → Posted capacity.toNat y.1.queue k) {t : Tid}
    (ht : y.1.pc t = .done none (.popped none))
    (h : ¬ (y.1.queue.enqueuePos = y.1.queue.dequeuePos ∧ ((∀ u, ¬ Admitted (y.1.pc u)) ∨ Lost capacity.toNat y.1))) :
    LaterPop version throwing capacity (words 64 y) := by
  obtain ⟨hc, hpow⟩ := AtomicVersion.capacity_spec hcap
  obtain ⟨as, s₁, h1, h2, h3, h4, h5⟩ := reach_ready version.backoff throwing hc hI hposted (t := t) (by rw [ht]; exact ⟨rfl, id⟩) h
  obtain ⟨after, s', k, v, g1, g2, g3, g4, g5⟩ := take_ready version.backoff throwing h3 (h2.trans ht)
  have hex : (machine Tid Nat T version.backoff capacity.toNat throwing).execFrom y.1
      ((as ++ [.ret t]) ++ .call t .tryPop :: after) = some s' := by
    rw [List.append_assoc, Machine.execFrom_append, h1]
    exact g1
  obtain ⟨log, hlog⟩ := Machine.logged_exec (trace capacity.toNat) y.2 hex
  have hw := words_exec (w := 64) version.backoff hc hpow hI hs (by omega) (by omega)
    (show s'.queue.enqueuePos + capacity.toNat ≤ _ + 2 ^ 63 by omega)
    (show s'.queue.dequeuePos + capacity.toNat ≤ _ + 2 ^ 63 by omega) hlog
  refine ⟨as ++ [.ret t], t, after, words 64 (s', log), k.map (word 64), v, ?_, g2, ?_⟩
  · rw [AtomicVersion.ticketed_eq]; exact hw
  · show (s'.pc t).map (word 64) = _
    rw [g3]
    rfl

/-- **Closed and empty is final** exactly when nothing is left to pop, and no
push was admitted that would find a cell. -/
theorem closed_and_empty_final_iff (version : AtomicVersion) (throwing : Bool)
    (hcap : normalizeCapacity fuel requested = some capacity) {n : Nat} (r : Run (version.ticketed Tid T capacity throwing) n)
    (hk : KeepsUp capacity.toNat r) (t : Tid) (a : Nat) (hseen : HasSeenClosed r t a) (hcall : Call r t .tryPop a n)
    (hfalse : (r.st n).1.pc t = .done none (.popped none))
    (hpub : (publishes (r.st n).2).length = (pushClaims (r.st n).2).length) :
    ¬ LaterPop version throwing capacity (r.st n) ↔ (r.st n).1.queue.enqueuePos = (r.st n).1.queue.dequeuePos ∧
      ((∀ u, ¬ Admitted ((r.st n).1.pc u)) ∨ Lost capacity.toNat (r.st n).1) := by
  obtain ⟨hc, hpow⟩ := AtomicVersion.capacity_spec hcap
  revert r
  rw [AtomicVersion.ticketed_eq]
  intro r hk hseen hcall hfalse hpub
  have hclosed := hseen.closed (Nat.le_of_lt hcall.lt)
  obtain ⟨r', -, hr'⟩ := run_reads r hc hpow hk
  obtain ⟨hy, hreads⟩ := hr' n (Nat.le_refl n)
  have hI := hreads.numbered.inv
  have hpublishes := publishes_reachable hc (r'.reachable n (Nat.le_refl n))
  have hroom : capacity.toNat < 2 ^ 63 := by
    have hless := (r.log_prefix (Nat.le_of_lt hcall.lt) (Nat.le_refl n)).sublist.filterMap (·.pushClaim) |>.length_le
    have := (hk t .tryPop a n hcall).1
    simp only [pushClaims] at this
    omega
  have hsince := fun u => near_iff.mp (hreads.near hk hy u (q := { (r'.st n).1.queue with
    enqueuePos := (r'.st n).1.queue.enqueuePos + 1, dequeuePos := (r'.st n).1.queue.dequeuePos + 1 }) (Nat.le_refl _) (Nat.le_refl _))
  have hnear := fun u => hreads.near hk hy u (q := (r'.st n).1.queue) (Nat.le_succ _) (Nat.le_succ _)
  generalize r'.st n = y at hy hreads hI hpublishes hsince hnear
  rw [hy] at hclosed hfalse hpub ⊢
  rw [hreads.numbered.claims.1, words, publishes_map, List.length_map] at hpub
  have hposted : ∀ k, k < y.1.queue.enqueuePos → Posted capacity.toNat y.1.queue k := fun k => hpublishes.all hpub
  have hsized := Sized.mk hI.lap hpow
  have hlt := hsized.half.2.2
  have heq : (words 64 y).1.queue.enqueuePos = (words 64 y).1.queue.dequeuePos ↔
      y.1.queue.enqueuePos = y.1.queue.dequeuePos := Counter.word_eq hI.lap.le (by have := hI.lap.bound; omega)
  have hadm : ∀ u, Admitted ((words 64 y).1.pc u) ↔ Admitted (y.1.pc u) := fun u => admitted_map (word 64) (y.1.pc u)
  have hlost : Lost capacity.toNat (words 64 y).1 ↔ Lost capacity.toNat y.1 := lost_word hI hpow
  simp only [heq, hadm, hlost]
  constructor
  · intro hno
    by_contra h
    exact hno (later_pop version throwing hcap hI hroom hsince hposted ((map_done _).mp hfalse) h)
  · rintro ⟨he, hbarred⟩
    refine no_later_pop version throwing hcap ⟨hI, hnear, hclosed, he, fun u => ?_, hbarred⟩
    -- a push that holds its ticket has not published it
    cases hu : pushTicket (y.1.pc u) with
    | none => rfl
    | some k =>
      have hf := hI.frames u
      have hne : y.1.queue.dequeuePos ≤ k ∧ k < y.1.queue.enqueuePos := by
        cases hpc : y.1.pc u with
        | construct arg pos => rw [hpc] at hf hu; cases hu; exact ⟨hf.1, hf.2.1⟩
        | publish arg pos => rw [hpc] at hf hu; cases hu; exact ⟨hf.1, hf.2.1⟩
        | _ => rw [hpc] at hu; cases hu
      omega

def closePop : List (Label Bool Nat) :=
  [.call false .close, .move false .go, .ret false, .call false .tryPop, .move false .go, .move false .go]

def closedRun : Run (AtomicVersion.V1.ticketed Bool Nat 2#64 true) 6 := Run.ofExec _ (.ret false) closePop (by decide)

def admittedRun : Run (AtomicVersion.V1.ticketed Bool Nat 2#64 false) 8 :=
  Run.ofExec _ (.ret false) (.call true (.emplace 7) :: .move true .go :: closePop) (by decide)

theorem closed_and_empty_not_final : HasSeenClosed admittedRun false 5 ∧ Call admittedRun false .tryPop 5 8 ∧
    (admittedRun.st 8).1.pc false = .done none (.popped none) ∧ (pushClaims (admittedRun.st 8).2).length = 0 ∧
    LaterPop .V1 false 2#64 (admittedRun.st 8) := by
  refine ⟨⟨4, none, .closed true, by decide, rfl, by decide, trivial⟩, ⟨by decide, by decide, rfl, by decide⟩, by decide,
    by decide, ?_⟩
  have hrun : ((AtomicVersion.V1.ticketed Bool Nat 2#64 false).execFrom (admittedRun.st 8)
      ((List.replicate 5 (.move true .go) ++ [.ret false]) ++ .call false .tryPop :: List.replicate 6 (.move false .go))).map
      (fun x => x.1.pc false) = some (.done (some 0) (.popped (some 7))) := by decide
  obtain ⟨x, hx, hpc⟩ := Option.map_eq_some_iff.mp hrun
  exact ⟨_, _, _, x, _, _, hx, by decide, hpc⟩

theorem closed_and_empty_final_run : ¬ LaterPop .V1 true 2#64 (closedRun.st 6) := by
  have hnone : ∀ i, i ≤ 6 → (pushClaims (closedRun.st i).2).length ≤ 0 ∧ (popClaims (closedRun.st i).2).length ≤ 0 := by decide
  exact (closed_and_empty_final_iff .V1 true (show normalizeCapacity 3 2#64 = some 2#64 by decide) closedRun
    (.of_le hnone (by decide)) false 3 ⟨2, none, .closed true, by decide, rfl, by decide, trivial⟩
    ⟨by decide, by decide, rfl, by decide⟩ (by decide) (by decide)).mpr ⟨by decide, .inl fun u hu => by cases u <;> exact hu⟩

end Yutil
