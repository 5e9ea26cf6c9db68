import Yutil.AtomicSolo
import Yutil.AtomicAnswers
import Mathlib.Data.List.GetD

/-!
# Rounds of one thread

A thread that pushes and pops in turn drives the counters of a ring of two
cells around their range. On the way the queue is never empty, and no push
holds the next pop ticket. A pop that stalls meanwhile between its two loads
takes the sequence number it reads for an old one and returns `false`.
-/

namespace Yutil.Atomic

open Interleave

section
variable {Tid N T : Type} [DecidableEq Tid] [DecidableEq N] [Counter N] [Elem T] {backoff : Nat → Nat} {c : Nat}
  {s : State Tid N T} {t : Tid}

/-- A call that a thread makes alone goes through states that an invariant of its frames allows. -/
theorem through_call {I : AtomicQueue N T → Frame N T → Prop} {Q : State Tid N T → Prop}
    (hI : ∀ q f m q' f', I q f → q.Acts backoff c m f q' f' → I q' f') (hidle : s.pc t = .idle) {op : AtomicOp T}
    {ms : List Move} {q' : AtomicQueue N T} {k : Option N} {r : Reply T} (hm : ∀ m ∈ ms, m ≠ .throws)
    (h : s.queue.acts backoff c (AtomicQueue.enter op) ms = some (q', .done k r)) (h0 : I s.queue (AtomicQueue.enter op))
    (hs : Q s) (hQ : ∀ q f, I q f → Q ⟨q, Function.update s.pc t f⟩) (hs' : Q ⟨q', s.pc⟩) :
    (machine Tid N T backoff c false).Through Q s (.call t op :: (ms.map (.move t) ++ [.ret t])) ⟨q', s.pc⟩ := by
  let s₁ : State Tid N T := ⟨s.queue, Function.update s.pc t (AtomicQueue.enter op)⟩
  let s₂ : State Tid N T := ⟨q', Function.update s.pc t (.done k r)⟩
  let J : State Tid N T → Prop := fun v => I v.queue (v.pc t) ∧ v.pc = Function.update s.pc t (v.pc t)
  have hJ : ∀ v, J v → Q v := by
    intro v hv
    have := hQ _ _ hv.1
    rwa [← hv.2] at this
  have hcall : (machine Tid N T backoff c false).step s (.call t op) = some s₁ := by
    simp only [machine, step, hidle, s₁]
  have hret : (machine Tid N T backoff c false).step s₂ (.ret t) = some ⟨q', s.pc⟩ := by
    simp only [machine, step, s₂, Function.update_self, Function.update_idem, Option.some.injEq]
    exact congrArg _ (by rw [← hidle, Function.update_eq_self])
  have hmoves : (machine Tid N T backoff c false).execFrom s₁ (ms.map (.move t)) = some s₂ := by
    have he := exec_of_acts (s := s₁) (t := t) false (fun m hm' he => absurd he (hm m hm'))
      (by simpa only [s₁, Function.update_self] using h)
    simpa only [s₁, s₂, Function.update_idem] using he
  have hthrough : (machine Tid N T backoff c false).Through J s₁ (ms.map (.move t)) s₂ := by
    refine Machine.Through.of_invariant (A := fun a => ∃ m, a = .move t m) ?_ ?_ ?_ hmoves
    · intro v a v' ha hv hstep
      obtain ⟨m, rfl⟩ := ha
      have hstep : step backoff c false v (.move t m) = some v' := hstep
      cases step_spec hstep with
      | move _ hacts =>
        refine ⟨?_, ?_⟩ <;> simp only [Function.update_self]
        · exact hI _ _ _ _ _ hv.1 hacts
        · rw [hv.2, Function.update_idem]
    · simp only [J, s₁, Function.update_self]
      exact ⟨h0, trivial⟩
    · intro a ha
      obtain ⟨m, -, rfl⟩ := List.mem_map.mp ha
      exact ⟨m, rfl⟩
  exact .cons hs hcall ((hthrough.mono hJ).append (.cons (hJ _ hthrough.final) hret (.nil hs')))

end

/-! ## One round -/

variable {Tid T : Type} {w : Nat}

def NeverEmpty (s : State Tid (BitVec w) T) : Prop :=
  s.queue.closed = false ∧ s.queue.enqueuePos ≠ s.queue.dequeuePos ∧
    ∀ u, pushTicket (s.pc u) ≠ some s.queue.dequeuePos

structure OneItem (q : AtomicQueue (BitVec w) T) (a : BitVec w) : Prop where
  enqueue : q.enqueuePos = Counter.plus a 1
  dequeue : q.dequeuePos = a
  item : (q.cell 2 a).sequence = Counter.plus a 1
  room : (q.cell 2 (Counter.plus a 1)).sequence = Counter.plus a 1
  closed : q.closed = false

structure TwoItems (q : AtomicQueue (BitVec w) T) (a : BitVec w) : Prop where
  enqueue : q.enqueuePos = Counter.plus a 2
  dequeue : q.dequeuePos = a
  item : (q.cell 2 a).sequence = Counter.plus a 1
  last : (q.cell 2 (Counter.plus a 1)).sequence = Counter.plus a 2
  closed : q.closed = false

variable [DecidableEq Tid] [Elem T] {s : State Tid (BitVec w) T} {t : Tid} {a : BitVec w}

section
variable {q q' : AtomicQueue (BitVec w) T} {f : Frame (BitVec w) T} {c : Nat}

omit [Elem T] in
theorem push_never_empty (h : AtomicQueue.PushAt c q q' f) (hcl : q.closed = false) (h1 : q.enqueuePos ≠ q.dequeuePos)
    (h2 : Counter.plus q.enqueuePos 1 ≠ q.dequeuePos) :
    q'.closed = false ∧ q'.enqueuePos ≠ q'.dequeuePos ∧ pushTicket f ≠ some q'.dequeuePos := by
  have took : Side.push.Took c q q' → ∀ k, k = q.enqueuePos →
      q'.closed = false ∧ q'.enqueuePos ≠ q'.dequeuePos ∧ some k ≠ some q'.dequeuePos := by
    intro ht k hk
    have he : q'.enqueuePos = Counter.plus q.enqueuePos 1 := ht.cursor
    have hd : q'.dequeuePos = q.dequeuePos := ht.other
    rw [he, hd, hk]
    exact ⟨ht.closed.trans hcl, h2, fun he => h1 (Option.some.inj he)⟩
  have same : q' = q → q'.closed = false ∧ q'.enqueuePos ≠ q'.dequeuePos ∧ none ≠ some q'.dequeuePos := by
    intro he
    rw [he]
    exact ⟨hcl, h1, by simp⟩
  cases f with
  | checkClosed => exact same h
  | loadEnqueue | loadSequence | claim => exact same h.1
  | construct arg pos => exact took h.2.2.2.1 pos h.1
  | publish arg pos => exact took h.2.2 pos h.1
  | done k r =>
    cases r with
    | pushed ok arg =>
      cases ok with
      | true => have := took h.2 _ rfl; exact ⟨this.1, this.2.1, by simp [pushTicket]⟩
      | false => exact same h
    | threw => have := took h.2.2.1 _ rfl; exact ⟨this.1, this.2.1, by simp [pushTicket]⟩
    | _ => exact h.elim
  | _ => exact h.elim

omit [Elem T] in
theorem pop_never_empty (h : AtomicQueue.PopAt c q q' f) (hcl : q.closed = false) (h1 : q.enqueuePos ≠ q.dequeuePos)
    (h2 : q.enqueuePos ≠ Counter.plus q.dequeuePos 1) :
    q'.closed = false ∧ q'.enqueuePos ≠ q'.dequeuePos ∧ pushTicket f ≠ some q'.dequeuePos := by
  have took : Side.pop.Took c q q' → q'.closed = false ∧ q'.enqueuePos ≠ q'.dequeuePos ∧ none ≠ some q'.dequeuePos := by
    intro ht
    have he : q'.enqueuePos = q.enqueuePos := ht.other
    have hd : q'.dequeuePos = Counter.plus q.dequeuePos 1 := ht.cursor
    rw [he, hd]
    exact ⟨ht.closed.trans hcl, h2, by simp⟩
  have same : q' = q → q'.closed = false ∧ q'.enqueuePos ≠ q'.dequeuePos ∧ none ≠ some q'.dequeuePos := by
    intro he
    rw [he]
    exact ⟨hcl, h1, by simp⟩
  cases f with
  | loadDequeue => exact same h
  | loadSequencePop | claimPop => exact same h.1
  | moveOut => exact took h.2.2.1
  | destroy | release => exact took h.2.2
  | done k r =>
    cases r with
    | popped out =>
      cases out with
      | some v => exact took h.2
      | none => exact same h
    | threw => exact took h.2.1
    | _ => exact h.elim
  | _ => exact h.elim

end

def sixMoves (t : Tid) (op : AtomicOp T) : List (Label Tid T) :=
  .call t op :: ((List.replicate 6 .go).map (.move t) ++ [.ret t])

section
variable (hc : ∃ j, j < w ∧ 2 = 2 ^ j) (hidle : s.pc t = .idle) (hothers : ∀ u, u ≠ t → pushTicket (s.pc u) = none)

include hc

omit [DecidableEq Tid] [Elem T] in
theorem ne_of_slots : Counter.slot 2 (Counter.plus a 1) ≠ Counter.slot 2 a ∧ Counter.plus a 1 ≠ a ∧
    Counter.plus a 2 ≠ a ∧ Counter.plus a 2 ≠ Counter.plus a 1 := by
  have h1 := Counter.slot_plus_ne hc a (i := 0) (j := 1) (by omega) (by omega)
  have h2 := Counter.plus_lap_ne hc a 0
  have h3 := Counter.slot_plus_ne hc a (i := 1) (j := 2) (by omega) (by omega)
  rw [Counter.plus_zero] at h1
  rw [Nat.zero_add, Counter.plus_zero] at h2
  exact ⟨h1, fun he => h1 (congrArg _ he), h2, fun he => h3 (congrArg _ he)⟩

include hidle hothers

omit [Elem T] hc in
theorem never_empty_quiet {q : AtomicQueue (BitVec w) T} (hcl : q.closed = false) (h : q.enqueuePos ≠ q.dequeuePos) :
    NeverEmpty ⟨q, s.pc⟩ := by
  refine ⟨hcl, h, fun u hu => ?_⟩
  by_cases hut : u = t
  · subst hut
    rw [hidle] at hu
    cases hu
  · rw [hothers u hut] at hu
    cases hu

omit [Elem T] hc hidle in
theorem never_empty_moving {q : AtomicQueue (BitVec w) T} {f : Frame (BitVec w) T}
    (h : q.closed = false ∧ q.enqueuePos ≠ q.dequeuePos ∧ pushTicket f ≠ some q.dequeuePos) :
    NeverEmpty (⟨q, Function.update s.pc t f⟩ : State Tid (BitVec w) T) := by
  refine ⟨h.1, h.2.1, fun u hu => ?_⟩
  by_cases hut : u = t
  · subst hut
    simp only [Function.update_self] at hu
    exact h.2.2 hu
  · simp only [Function.update_of_ne hut, hothers u hut] at hu
    cases hu

theorem OneItem.push (backoff : Nat → Nat) (h : OneItem s.queue a) (arg : T) : ∃ q,
    (machine Tid (BitVec w) T backoff 2 false).Through NeverEmpty s (sixMoves t (.emplace arg)) ⟨q, s.pc⟩ ∧ TwoItems q a := by
  obtain ⟨hslot, hne, hne2, -⟩ := ne_of_slots (a := a) hc
  have he := h.enqueue
  have hd := h.dequeue
  have hnext : Counter.plus (Counter.plus a 1) 1 = Counter.plus a 2 := Counter.plus_plus a 1 1
  have hready : Side.push.Ready 2 s.queue (Side.push.cursor s.queue) := by
    apply Counter.dif_eq_zero.mpr
    show (s.queue.cell 2 s.queue.enqueuePos).sequence = s.queue.enqueuePos
    rw [he]
    exact h.room
  obtain ⟨q, k, r, hacts, hs, hmark⟩ := AtomicQueue.acts_ready backoff .push arg hready h.closed
  have ht := ((AtomicQueue.acts_spec .push hacts).1 hs).2
  have he' : q.enqueuePos = Counter.plus a 2 := by rw [← hnext, ← he]; exact ht.cursor
  have hd' : q.dequeuePos = a := ht.other.trans hd
  have hcl : q.closed = false := ht.closed.trans h.closed
  refine ⟨q, ?_, he', hd', ?_, ?_, hcl⟩
  · refine through_call (I := AtomicQueue.PushAt 2 s.queue) (fun _ _ _ _ _ hp ha => hp.act ha) hidle (by simp) hacts rfl
      (never_empty_quiet hidle hothers h.closed ?_) (fun q f hp => never_empty_moving hothers ?_)
      (never_empty_quiet hidle hothers hcl ?_)
    · rw [he, hd]; exact hne
    · exact push_never_empty hp h.closed (by rw [he, hd]; exact hne) (by rw [he, hd, hnext]; exact hne2)
    · rw [he', hd']; exact hne2
  · have hcell : q.cell 2 a = s.queue.cell 2 a := ht.cells _ (by
      show _ ≠ Counter.slot 2 s.queue.enqueuePos
      rw [he]
      exact hslot.symm)
    rw [hcell]
    exact h.item
  · have hmark : (q.cell 2 s.queue.enqueuePos).sequence = Counter.plus s.queue.enqueuePos 1 := hmark
    rwa [he, hnext] at hmark

theorem TwoItems.pop (backoff : Nat → Nat) (h : TwoItems s.queue a) : ∃ q,
    (machine Tid (BitVec w) T backoff 2 false).Through NeverEmpty s (sixMoves t .tryPop) ⟨q, s.pc⟩ ∧
      OneItem q (Counter.plus a 1) := by
  obtain ⟨hslot, hne, hne2, hne3⟩ := ne_of_slots (a := a) hc
  have he := h.enqueue
  have hd := h.dequeue
  have hnext : Counter.plus (Counter.plus a 1) 1 = Counter.plus a 2 := Counter.plus_plus a 1 1
  have hlap := Counter.slot_lap hc a 0
  rw [Nat.zero_add, Counter.plus_zero] at hlap
  have hready : Side.pop.Ready 2 s.queue (Side.pop.cursor s.queue) := by
    apply Counter.dif_eq_zero.mpr
    show (s.queue.cell 2 s.queue.dequeuePos).sequence = Counter.plus s.queue.dequeuePos 1
    rw [hd]
    exact h.item
  obtain ⟨q, k, r, hacts, hs, hmark⟩ := AtomicQueue.acts_ready backoff .pop default hready trivial
  have ht := ((AtomicQueue.acts_spec .pop hacts).1 hs).2
  have he' : q.enqueuePos = Counter.plus a 2 := ht.other.trans he
  have hd' : q.dequeuePos = Counter.plus a 1 := by rw [← hd]; exact ht.cursor
  have hcl : q.closed = false := ht.closed.trans h.closed
  refine ⟨q, ?_, he'.trans hnext.symm, hd', ?_, ?_, hcl⟩
  · refine through_call (I := AtomicQueue.PopAt 2 s.queue) (fun _ _ _ _ _ hp ha => hp.act ha) hidle (by simp) hacts rfl
      (never_empty_quiet hidle hothers h.closed ?_) (fun q f hp => never_empty_moving hothers ?_)
      (never_empty_quiet hidle hothers hcl ?_)
    · rw [he, hd]; exact hne2
    · exact pop_never_empty hp h.closed (by rw [he, hd]; exact hne2) (by rw [he, hd]; exact hne3)
    · rw [he', hd']; exact hne3
  · have hcell : q.cell 2 (Counter.plus a 1) = s.queue.cell 2 (Counter.plus a 1) := ht.cells _ (by
      show _ ≠ Counter.slot 2 s.queue.dequeuePos
      rw [hd]
      exact hslot)
    rw [hcell, hnext]
    exact h.last
  · have hmark : (q.cell 2 s.queue.dequeuePos).sequence = Counter.plus s.queue.dequeuePos 2 := hmark
    have hcell : q.cell 2 (Counter.plus a 2) = q.cell 2 a := congrArg q.cells hlap
    rw [hd] at hmark
    rw [hnext, hcell]
    exact hmark

/-- Rounds of one thread carry one item on and on, with every other thread where it was. -/
theorem OneItem.rounds (backoff : Nat → Nat) (h : OneItem s.queue a) (arg : T) (n : Nat) : ∃ as q,
    (machine Tid (BitVec w) T backoff 2 false).Through NeverEmpty s as ⟨q, s.pc⟩ ∧ OneItem q (Counter.plus a n) ∧
      ∀ b ∈ as, b ∈ sixMoves t (.emplace arg) ++ sixMoves t .tryPop := by
  induction n with
  | zero =>
    refine ⟨[], s.queue, .nil (never_empty_quiet hidle hothers h.closed ?_), ?_, by simp⟩
    · rw [h.enqueue, h.dequeue]
      exact (ne_of_slots hc).2.1
    · rw [Counter.plus_zero]
      exact h
  | succ n ih =>
    obtain ⟨as, q, h1, h2, h3⟩ := ih
    obtain ⟨q₁, g1, g2⟩ := OneItem.push (s := ⟨q, s.pc⟩) hc hidle hothers backoff h2 arg
    obtain ⟨q₂, g3, g4⟩ := TwoItems.pop (s := ⟨q₁, s.pc⟩) hc hidle hothers backoff g2
    refine ⟨as ++ (sixMoves t (.emplace arg) ++ sixMoves t .tryPop), q₂, h1.append (g1.append g3), ?_, ?_⟩
    · rwa [Counter.plus_plus] at g4
    · intro b hb
      rcases List.mem_append.mp hb with hb | hb
      · exact h3 b hb
      · exact hb

end

end Yutil.Atomic

namespace Yutil

open Interleave Atomic

/-! ## A pop that stalls for half a range -/

def beforeStall : List (Label Bool Nat) := sixMoves true (.emplace 7) ++ [.call false .tryPop]

/-- Without a bound on the tickets a `try_pop` can return `false` although at
every instant of the call an item was queued and its push had finished. -/
theorem false_past_range : ∃ (n : Nat) (r : Run (AtomicVersion.V1.recorded Bool Nat 2#64) n),
    Call r false .tryPop 8 n ∧ (r.st n).1.pc false = .done none (.popped none) ∧
      ∀ j, 8 < j → j < n → NeverEmpty (r.st j).1 := by
  let M := Atomic.machine Bool (BitVec 64) Nat BoundedAtomicMpmcQueueV1.backoff 2 false
  -- the pop has loaded the position 0
  obtain ⟨s₀, hs₀⟩ : ∃ s₀, M.exec beforeStall = some s₀ := Option.isSome_iff_exists.mp (by decide)
  obtain ⟨s₁, hs₁⟩ : ∃ s₁, M.exec (beforeStall ++ [.move false .go]) = some s₁ := Option.isSome_iff_exists.mp (by decide)
  have hstep : M.step s₀ (.move false .go) = some s₁ := by
    unfold Machine.exec at hs₀ hs₁
    rw [Machine.execFrom_append, hs₀] at hs₁
    obtain ⟨v, hv, he⟩ := Machine.execFrom_cons_some hs₁
    cases he
    exact hv
  have quiet : ∀ (l : List (Label Bool Nat)) (s : State Bool (BitVec 64) Nat), M.exec l = some s → ∀ f,
      ((M.exec l).all fun s => decide (s.queue.enqueuePos = 1 ∧ s.queue.dequeuePos = 0 ∧ (s.queue.cell 2 0).sequence = 1 ∧
        (s.queue.cell 2 1).sequence = 1 ∧ s.queue.closed = false ∧ s.pc true = .idle ∧ s.pc false = f)) = true →
      OneItem s.queue 0 ∧ s.pc true = .idle ∧ s.pc false = f := by
    intro l s hl f h
    rw [hl, Option.all_some, decide_eq_true_eq] at h
    obtain ⟨h1, h2, h3, h4, h5, h6, h7⟩ := h
    exact ⟨⟨h1, h2, h3, h4, h5⟩, h6, h7⟩
  obtain ⟨h0, hi0, hf0⟩ := quiet _ _ hs₀ (.loadDequeue 0) (by decide)
  obtain ⟨h1, hi1, hf1⟩ := quiet _ _ hs₁ (.loadSequencePop 0 0) (by decide)
  have others : ∀ (s : State Bool (BitVec 64) Nat), pushTicket (s.pc false) = none → ∀ u, u ≠ true → pushTicket (s.pc u) = none := by
    intro s h u hu
    rw [Bool.eq_false_iff.mpr hu]
    exact h
  -- the other thread carries its item on for half the range of the words
  obtain ⟨as, q, hthrough, hq, has⟩ := OneItem.rounds ⟨1, by omega, rfl⟩ hi1
    (others s₁ (by rw [hf1]; rfl)) BoundedAtomicMpmcQueueV1.backoff h1 7 (2 ^ 63)
  have hgood : NeverEmpty s₀ := never_empty_quiet hi0 (others s₀ (by rw [hf0]; rfl)) h0.closed (by
    rw [h0.enqueue, h0.dequeue]
    decide)
  have hduring : M.Through NeverEmpty s₀ (.move false .go :: as) ⟨q, s₁.pc⟩ := .cons hgood hstep hthrough
  -- and the pop reads a sequence number that looks old
  have hcell : (q.cell 2 0).sequence = Counter.plus (Counter.plus (0 : BitVec 64) (2 ^ 63)) 1 := hq.item
  have hlast : M.step ⟨q, s₁.pc⟩ (.move false .go) =
      some ⟨q, Function.update s₁.pc false (.done none (.popped none))⟩ := by
    have hdif : Counter.dif (q.cell 2 0).sequence (Counter.plus (0 : BitVec 64) 1) < 0 := by
      rw [hcell]
      decide
    have hact : q.act BoundedAtomicMpmcQueueV1.backoff 2 .go (.loadSequencePop 0 0) = some (q, .done none (.popped none)) := by
      simp only [AtomicQueue.act, hdif, hdif.ne, ite_true, ite_false]
    simp only [M, machine, step, hf1, hact, reduceCtorEq, false_and, ite_false, Option.map_some]
  -- the same steps with the log
  have hrec : AtomicVersion.V1.recorded Bool Nat 2#64 = M.logged (trace 2) := rfl
  rw [hrec]
  obtain ⟨l₀, hl₀⟩ := Machine.logged_exec (trace 2) [] hs₀
  obtain ⟨l₁, hl₁⟩ := hduring.logged (trace 2) l₀
  have hend : M.execFrom ⟨q, s₁.pc⟩ [.move false .go] =
      some ⟨q, Function.update s₁.pc false (.done none (.popped none))⟩ := Machine.execFrom_cons hlast
  obtain ⟨l₂, hl₂⟩ := Machine.logged_exec (trace 2) l₁ hend
  have hexec : (M.logged (trace 2)).exec (beforeStall ++ (.move false .go :: as ++ [.move false .go])) =
      some (⟨q, Function.update s₁.pc false (.done none (.popped none))⟩, l₂) := by
    unfold Machine.exec
    rw [Machine.execFrom_append]
    show ((M.logged (trace 2)).execFrom (M.start, []) beforeStall).bind _ = _
    rw [hl₀, Option.bind_some, Machine.execFrom_append, hl₁.exec, Option.bind_some, hl₂]
  have hsome := Option.isSome_iff_exists.mpr ⟨_, hexec⟩
  have hlen : (beforeStall ++ (.move false .go :: as ++ [.move false .go] : List (Label Bool Nat))).length = as.length + 11 := by
    simp only [List.length_append, List.length_cons, List.length_nil, show beforeStall.length = 9 from rfl]
    omega
  refine ⟨_, Run.ofExec _ (.ret false) _ hsome, ⟨by omega, Nat.le_refl _, rfl, ?_⟩, ?_, ?_⟩
  · -- no label of the call is its return
    have hno : ∀ b, b ∈ (.move false .go :: as ++ [.move false .go] : List (Label Bool Nat)) → b ≠ .ret false := by
      intro b hb he
      subst he
      simp only [List.cons_append, List.mem_cons, List.mem_append, reduceCtorEq, List.not_mem_nil, or_false, false_or] at hb
      have := has _ hb
      simp [sixMoves] at this
    intro j hj hj'
    apply hno _
    show (beforeStall ++ _).getD j _ ∈ _
    have h9 : beforeStall.length = 9 := rfl
    rw [List.getD_eq_getElem _ _ (by omega), List.getElem_append_right (by omega)]
    exact List.getElem_mem _
  · rw [Run.ofExec_st hsome (by rw [List.take_length]; exact hexec)]
    simp only [Function.update_self]
  · intro j hj hj'
    refine Run.ofExec_through (Q := fun x => NeverEmpty x.1) hl₀ hl₁ hsome hj ?_
    simp only [List.length_cons, show beforeStall.length = 9 from rfl]
    omega

end Yutil
