import Yutil.AtomicRuns

/-!
# What a false answer means

`try_pop` and `emplace` return `false` from the mark of one cell, read after a
position that may be stale. That mark shows the queue empty (full), or it
shows a push (pop) that owns the cell's ticket and has not finished with it.
-/

namespace Yutil

open Interleave

namespace Atomic

section
variable {T : Type} {c k : Nat} {q : NatQueue T}

theorem Lap.passed_le (h : Lap c q) (hc : 0 < c) (hk : k < q.dequeuePos) : k + 1 ≤ (q.cell c k).sequence := by
  obtain ⟨j, h1, h2, h3⟩ := Counter.exists_window hc q.dequeuePos k
  have hj := Counter.lap_le h3 (by omega)
  rw [← cell_mod q h3]
  rcases Nat.lt_or_ge j q.enqueuePos with he | he
  · have := h.claimed j h1 he
    omega
  · have := h.free j he h2
    omega

theorem Lap.no_item (h : Lap c q) (hc : 0 < c) (hk : k ≤ q.dequeuePos) (hs : (q.cell c k).sequence < k + 1) :
    k = q.dequeuePos ∧ (q.enqueuePos = q.dequeuePos ∨ q.dequeuePos < q.enqueuePos ∧ (q.cell c k).sequence = k) := by
  have hle := h.le
  rcases Nat.lt_or_eq_of_le hk with hlt | rfl
  · have := h.passed_le hc hlt
    omega
  · refine ⟨rfl, ?_⟩
    rcases Nat.lt_or_eq_of_le hle with hlt | heq
    · have := h.claimed _ (Nat.le_refl _) hlt
      omega
    · exact .inl heq.symm

theorem Lap.no_room (h : Lap c q) (hc : 0 < c) (hk : k ≤ q.enqueuePos) (hs : (q.cell c k).sequence < k) :
    k = q.enqueuePos := by
  by_contra hne
  have hlt : k < q.enqueuePos := Nat.lt_of_le_of_ne hk hne
  rcases Nat.lt_or_ge k q.dequeuePos with hd | hd
  · have := h.passed_le hc hd
    omega
  · have := h.claimed k hd hlt
    omega

end

variable {Tid T : Type} [Elem T] {c k : Nat} {s s' : State Tid Nat T} {l : List (TicketEvent Tid Nat T)}

theorem Life.pushing (h : Life c s k l) (hI : Inv c s) (h1 : s.queue.dequeuePos ≤ k) (h2 : k < s.queue.enqueuePos)
    (hs : (s.queue.cell c k).sequence = k) : ∃ u, pushTicket (s.pc u) = some k := by
  obtain ⟨he, -⟩ | ⟨u, _, hp, -⟩ | ⟨u, _, hp, -⟩ | ⟨_, _, -, hmark, -⟩ := h.unpopped hI h1
  · omega
  · exact ⟨u, by rw [hp]; rfl⟩
  · exact ⟨u, by rw [hp]; rfl⟩
  · omega

variable [DecidableEq Tid] {backoff : Nat → Nat} {t : Tid} {a : Label Tid T} {log : List (TicketEvent Tid Nat T)}

theorem Inv.decides_empty {throwing : Bool} (h : Inv c s) (hc : 0 < c) (hs : Atomic.step backoff c throwing s a = some s')
    (hn : s.pc t ≠ .done none (.popped none)) (hd : s'.pc t = .done none (.popped none)) : a = .move t .go ∧
      (∃ spins, s.pc t = .loadSequencePop s.queue.dequeuePos spins) ∧ (s.queue.enqueuePos = s.queue.dequeuePos ∨
        s.queue.dequeuePos < s.queue.enqueuePos ∧ (s.queue.cell c s.queue.dequeuePos).sequence = s.queue.dequeuePos) := by
  obtain ⟨m, rfl, hf⟩ := (step_spec hs).answered hn hd
  have hok := h.frames t
  generalize s.pc t = g at hf hok
  generalize s'.queue = q' at hf
  cases hf with
  | @empty pos spins hdif =>
    have hlt : (s.queue.cell c pos).sequence < pos + 1 := by simp only [Counter.dif, Counter.plus] at hdif; omega
    obtain ⟨rfl, hfound⟩ := h.lap.no_item hc hok hlt
    exact ⟨rfl, ⟨spins, rfl⟩, hfound⟩

theorem Inv.decides_full {throwing : Bool} (h : Inv c s) (hc : 0 < c) (hopen : s.queue.closed = false)
    (hs : Atomic.step backoff c throwing s a = some s') {arg : T} (hn : s.pc t ≠ .done none (.pushed false arg))
    (hd : s'.pc t = .done none (.pushed false arg)) : a = .move t .go ∧
      (∃ spins, s.pc t = .loadSequence arg s.queue.enqueuePos spins) ∧
      (s.queue.cell c s.queue.enqueuePos).sequence < s.queue.enqueuePos := by
  obtain ⟨m, rfl, hf⟩ := (step_spec hs).answered hn hd
  have hok := h.frames t
  generalize s.pc t = g at hf hok
  generalize s'.queue = q' at hf
  cases hf with
  | refused hcl => rw [hopen] at hcl; cases hcl
  | @full _ pos spins hdif =>
    have hlt : (s.queue.cell c pos).sequence < pos := by simp only [Counter.dif] at hdif; omega
    obtain rfl := h.lap.no_room hc hok hlt
    exact ⟨rfl, ⟨spins, rfl⟩, hlt⟩

theorem Recorded.says_empty (h : Recorded c s log) (hc : 0 < c) (hs : Atomic.step backoff c false s a = some s')
    (hn : s.pc t ≠ .done none (.popped none)) (hd : s'.pc t = .done none (.popped none)) :
    s.queue.enqueuePos = s.queue.dequeuePos ∨ ∃ u, pushTicket (s.pc u) = some s.queue.dequeuePos := by
  obtain ⟨-, -, he | ⟨he, hmark⟩⟩ := h.inv.decides_empty hc hs hn hd
  · exact .inl he
  · exact .inr ((h.life _).pushing h.inv (Nat.le_refl _) he hmark)

theorem Inv.empty_stays (h : Inv c s) (hc : 2 ≤ c) (hs : Atomic.step backoff c false s a = some s')
    (he : s.queue.enqueuePos = s.queue.dequeuePos) (hno : ∀ u arg pos spins, s.pc u ≠ .claim arg pos spins) :
    s'.queue.enqueuePos = s'.queue.dequeuePos := by
  cases step_spec hs with
  | call _ => exact he
  | ret _ => exact he
  | @move t m q f _ ha =>
    have hf := h.frames t
    have hno := hno t
    generalize s.pc t = g at ha hf hno
    cases ha with
    | claim => exact absurd rfl (hno _ _ _)
    | claimPop hd =>
      subst hd
      rcases hf with hf | hf
      · exact absurd hf (Nat.lt_irrefl _)
      · have := (h.lap.item hc hf.2).1
        omega
    | _ => exact he

/-! ## Published tickets -/

omit [DecidableEq Tid] in
theorem Acts_sequence {m : Move} {q q' : NatQueue T} {f f' : Frame Nat T} (hc : 0 < c) (hf : FrameOk c q f)
    (ha : q.Acts backoff c m f q' f') (k : Nat) : (q.cell c k).sequence ≤ (q'.cell c k).sequence := by
  have stored : ∀ pos x, (q.cell c pos).sequence ≤ x → (q.cell c k).sequence ≤ ((q.store c pos x).cell c k).sequence := by
    intro pos x hx
    by_cases hk : k % c = pos % c
    · rw [cell_mod (q.store c pos x) hk, cell_store_self, cell_mod q hk]
      exact hx
    · rw [cell_store_ne _ _ hk]
  cases ha with
  | construct | moveOut | destroy => exact Nat.le_of_eq (sequence_place ..).symm
  | publish => exact stored _ _ (Nat.le_succ_of_le (Nat.le_of_eq hf.2.2.1))
  | release => exact stored _ _ (Nat.le_trans (Nat.le_of_eq hf.2.2.1) (Nat.add_le_add_left hc _))
  | _ => exact Nat.le_refl _

def Posted (c : Nat) (q : NatQueue T) (k : Nat) : Prop :=
  k < q.enqueuePos ∧ (q.dequeuePos ≤ k → (q.cell c k).sequence = k + 1)

theorem Posted.step {throwing : Bool} (hc : 2 ≤ c) (h : Posted c s.queue k) (hI : Inv c s)
    (hs : Atomic.step backoff c throwing s a = some s') : Posted c s'.queue k := by
  have hI' := hI.step hc hs
  cases step_spec hs with
  | call _ => exact h
  | ret _ => exact h
  | @move t m q f _ ha =>
    have hseq := Acts_sequence (show 0 < c by omega) (hI.frames t) ha k
    obtain ⟨hE, hD⟩ := counters_step hs
    obtain ⟨h1, h2⟩ := h
    refine ⟨Nat.lt_of_lt_of_le h1 hE, fun hk => ?_⟩
    have hmark := h2 (Nat.le_trans hD hk)
    rcases hI'.lap.claimed k hk (Nat.lt_of_lt_of_le h1 hE) with hs | hs
    · have hs : (q.cell c k).sequence = k := hs
      omega
    · exact hs.1

/-- A thread between the claim of push ticket `k` and its return, which has
published the ticket once it says so. -/
def Placing (c : Nat) (s : State Tid Nat T) (u : Tid) (k : Nat) : Prop :=
  match s.pc u with
  | .construct _ pos | .publish _ pos => pos = k
  | .done _ (.pushed true _) => Posted c s.queue k
  | .done _ _ => True
  | _ => False

theorem Placing.step {throwing : Bool} {u : Tid} (hc : 2 ≤ c) (h : Placing c s u k) (hI : Inv c s)
    (hs : Atomic.step backoff c throwing s a = some s') (hr : a ≠ .ret u) : Placing c s' u k := by
  have posted : ∀ q, s'.queue = q → Posted c s.queue k → Posted c q k := fun q hq hm => hq ▸ hm.step hc hI hs
  -- what another thread does
  have others : ∀ q (t : Tid) f, s' = ⟨q, Function.update s.pc t f⟩ → u ≠ t → Placing c s' u k := by
    rintro q t f rfl hu
    unfold Placing at h ⊢
    simp only [Function.update_of_ne hu]
    cases hpc : s.pc u with
    | done o r =>
      rw [hpc] at h
      cases r with
      | pushed ok arg =>
        cases ok with
        | true => exact posted q rfl h
        | false => trivial
      | _ => trivial
    | _ => rw [hpc] at h; exact h
  cases step_spec hs with
  | @call t op hpc =>
    by_cases hu : u = t
    · subst hu
      unfold Placing at h
      rw [hpc] at h
      exact h.elim
    · exact others _ t _ rfl hu
  | @ret t _ _ hpc =>
    by_cases hu : u = t
    · subst hu
      exact absurd rfl hr
    · exact others _ t _ rfl hu
  | @move t m q f _ ha =>
    by_cases hu : u = t
    · subst hu
      have hf := hI.frames u
      unfold Placing at h ⊢
      simp only [Function.update_self]
      generalize s.pc u = g at h ha hf
      cases ha with
      | construct => exact h
      | constructThrows => trivial
      | publish =>
        subst h
        refine ⟨hf.2.1, fun _ => ?_⟩
        rw [cell_store_self]
        rfl
      | _ => exact h.elim
    · exact others q t f rfl hu

/-! ## Runs -/

section
variable {Tid T : Type} {w n : Nat} {M : Machine (State Tid (BitVec w) T × List (TicketEvent Tid (BitVec w) T)) (Label Tid T)}
  (capacity : BitVec w) (r : Run M n)

/-- At step `i` thread `u` returns `true` from the push that claimed, at `h`, the push ticket number `k`. -/
structure Accepts (u : Tid) (h k i : Nat) : Prop where
  lt : h < i
  claims : r.lab h = .move u .go
  number : (pushClaims (r.st h).2).length = k
  claimed : (pushClaims (r.st (h + 1)).2).length = k + 1
  stays : ∀ j, j < i → h < j → r.lab j ≠ .ret u
  returns : r.lab i = .ret u
  accepted : ∃ ticket arg, (r.st i).1.pc u = .done ticket (.pushed true arg)

/-- At some instant of a `try_pop` that returns `false`, every push that had
returned `true` had been claimed by a pop. -/
def SaysEmptyTruly : Prop :=
  ∀ t a b, Call r t .tryPop a b → (r.st b).1.pc t = .done none (.popped none) → ∃ j, a ≤ j ∧ j ≤ b ∧
    ∀ u h k i, i < j → Accepts r u h k i → k < (popClaims (r.st j).2).length

/-- At some instant of an `emplace` that returns `false`, every cell is taken. -/
def SaysFullTruly : Prop :=
  ∀ t x a b arg, Call r t (.emplace x) a b → (r.st b).1.pc t = .done none (.pushed false arg) → ∃ j, a ≤ j ∧ j ≤ b ∧
    (r.st j).1.queue.enqueuePos - (r.st j).1.queue.dequeuePos = capacity

/-- At step `i` one cell speaks for the whole queue: that of the next pop ticket,
whose push has not published it although a later one has returned, or that of
the next push ticket, which is not free although there is room. -/
inductive Misled (i : Nat) : Prop
  | pop {t u : Tid} {spins h k j : Nat} : r.lab i = .move t .go →
      (r.st i).1.pc t = .loadSequencePop (r.st i).1.queue.dequeuePos spins →
      ((r.st i).1.queue.cell capacity.toNat (r.st i).1.queue.dequeuePos).sequence = (r.st i).1.queue.dequeuePos →
      Accepts r u h k j → j < i → (popClaims (r.st i).2).length < k → Misled i
  | push {t : Tid} {arg : T} {spins : Nat} : r.lab i = .move t .go →
      (r.st i).1.pc t = .loadSequence arg (r.st i).1.queue.enqueuePos spins →
      ((r.st i).1.queue.cell capacity.toNat (r.st i).1.queue.enqueuePos).sequence ≠ (r.st i).1.queue.enqueuePos →
      (r.st i).1.queue.enqueuePos - (r.st i).1.queue.dequeuePos ≠ capacity → Misled i

def SettlesFalse (i : Nat) : Prop :=
  ∃ t, r.lab i = .move t .go ∧
    ((r.st (i + 1)).1.pc t = .done none (.popped none) ∨ ∃ arg, (r.st (i + 1)).1.pc t = .done none (.pushed false arg))

end

section
variable {w n : Nat} {throwing : Bool} {r : Run ((machine Tid (BitVec w) T backoff c throwing).logged (trace c)) n}
  {r' : Run ((machine Tid Nat T backoff c throwing).logged (trace c)) n}

theorem Accepts.posted (hc : 2 ≤ c) (hlab : r'.lab = r.lab) (hst : ∀ i, i ≤ n → r.st i = words w (r'.st i))
    (hnum : ∀ i, i ≤ n → Numbered c (r'.st i).1 (r'.st i).2) {u : Tid} {h i j : Nat} (ha : Accepts r u h k i) (hij : i < j)
    (hj : j ≤ n) : Posted c (r'.st j).1.queue k := by
  have steps : ∀ j, j < n → Atomic.step backoff c throwing (r'.st j).1 (r.lab j) = some (r'.st (j + 1)).1 := fun j hj => by
    rw [← hlab]
    exact (Machine.logged_step.mp (r'.step j hj)).1
  have count : ∀ j, j ≤ n → (pushClaims (r.st j).2).length = (r'.st j).1.queue.enqueuePos := fun j hj => by
    rw [hst j hj]
    exact (hnum j hj).claims.1
  have hlt := ha.lt
  -- the claim
  have hclaim : Placing c (r'.st (h + 1)).1 u k := by
    have hs := steps h (by omega)
    have h1 := ha.number
    have h2 := ha.claimed
    rw [count h (by omega)] at h1
    rw [count (h + 1) (by omega)] at h2
    rw [ha.claims] at hs
    generalize (r'.st (h + 1)).1 = s' at hs h2
    cases step_spec hs with
    | move _ hact =>
      unfold Placing
      simp only [Function.update_self]
      generalize (r'.st h).1.pc u = g at hact
      cases hact with
      | claim he => exact he.symm.trans h1
      | _ => exact absurd (h1.symm.trans h2) (Nat.ne_of_lt (Nat.lt_succ_self k))
  -- the calls of the push up to its return
  have hplaced : Placing c (r'.st i).1 u k :=
    r'.persists (fun x => Placing c x.1 u k) hlt (fun m h1 h2 hp =>
      hp.step hc (hnum m (by omega)).inv (steps m (by omega)) (ha.stays m h2 h1)) hclaim
  obtain ⟨ticket, arg, hpc⟩ := ha.accepted
  have hmarked : Posted c (r'.st i).1.queue k := by
    rw [hst i (by omega)] at hpc
    have hpc : ((r'.st i).1.pc u).map (word w) = .done ticket (.pushed true arg) := hpc
    unfold Placing at hplaced
    cases hf : (r'.st i).1.pc u with
    | done o reply =>
      rw [hf] at hpc hplaced
      simp only [Frame.map, Frame.done.injEq] at hpc
      rw [hpc.2] at hplaced
      exact hplaced
    | _ => rw [hf] at hpc; cases hpc
  exact r'.persists (fun x => Posted c x.1.queue k) (Nat.le_of_lt hij) (fun m _ h2 hm =>
    hm.step hc (hnum m (by omega)).inv (steps m (by omega))) hmarked

theorem decides (r : Run ((machine Tid Nat T backoff c throwing).logged (trace c)) n) {op : AtomicOp T} {b i : Nat} {reply : Reply T}
    (hcall : Call r t op i b) (hd : (r.st b).1.pc t = .done none reply) : ∃ j, i < j ∧ j < b ∧
      (r.st j).1.pc t ≠ .done none reply ∧ (r.st (j + 1)).1.pc t = .done none reply ∧
      Atomic.step backoff c throwing (r.st j).1 (r.lab j) = some (r.st (j + 1)).1 := by
  have steps : ∀ j, j < n → Atomic.step backoff c throwing (r.st j).1 (r.lab j) = some (r.st (j + 1)).1 := fun j hj =>
    (Machine.logged_step.mp (r.step j hj)).1
  have hle := hcall.le
  have hlt := hcall.lt
  -- right after the call the answer is not there yet
  have hcalled : (r.st (i + 1)).1.pc t = AtomicQueue.enter op := by
    have hs := steps i (by omega)
    rw [hcall.lab] at hs
    generalize (r.st (i + 1)).1 = s' at hs
    cases step_spec hs with
    | call _ => exact Function.update_self ..
  obtain ⟨j, h1, h2, h3, h4⟩ := r.crossing (fun x => x.1.pc t = .done none reply) hlt
    (by rw [hcalled]; cases op <;> intro he <;> cases he) hd
  exact ⟨j, h1, h2, h3, h4, steps j (by omega)⟩

theorem Misled.answers {capacity : BitVec w} (hcap : capacity.toNat = c) (hc : 2 ≤ c) (hpow : ∃ j, j < w ∧ c = 2 ^ j)
    (hk : KeepsUp c r) {i : Nat} (hi : i < n) (h : Misled capacity r i) : SettlesFalse r i := by
  obtain ⟨r', -, hr'⟩ := run_reads r hc hpow hk
  obtain ⟨hst, hreads⟩ := hr' i (by omega)
  have hsized := Sized.mk hreads.numbered.inv.lap hpow
  obtain ⟨hw, hhalf, -⟩ := hsized.half
  have hstep : Atomic.step backoff c throwing (r.st i).1 (r.lab i) = some (r.st (i + 1)).1 := (Machine.logged_step.mp (r.step i hi)).1
  cases h with
  | @pop t u spins h k j hlab hpc hseq =>
    rw [hcap] at hseq
    have hdif : Counter.dif ((r.st i).1.queue.cell c (r.st i).1.queue.dequeuePos).sequence
        (Counter.plus (r.st i).1.queue.dequeuePos 1) < 0 := by
      rw [hseq]
      have := Counter.dif_neg (r.st i).1.queue.dequeuePos (show 0 < 1 by omega) (by omega) hw
      rwa [Counter.plus_zero] at this
    rw [hlab] at hstep
    simp only [Atomic.step, reduceCtorEq, false_and, if_false, hpc, AtomicQueue.act, hdif.ne, hdif, if_true, Option.map_some,
      Option.some.injEq] at hstep
    refine ⟨t, hlab, .inl ?_⟩
    rw [← hstep]
    exact Function.update_self ..
  | @push t arg spins hlab hpc hseq =>
    rw [hcap] at hseq
    have hdif : Counter.dif ((r.st i).1.queue.cell c (r.st i).1.queue.enqueuePos).sequence (r.st i).1.queue.enqueuePos < 0 := by
      rw [hst] at hseq ⊢
      have hle := (hsized.lap.next_le hc).1
      have hne : ((r'.st i).1.queue.cell c (r'.st i).1.queue.enqueuePos).sequence ≠ (r'.st i).1.queue.enqueuePos := fun he =>
        hseq ((congrArg Cell.sequence (hsized.cell _)).trans (congrArg (word w) he))
      have hd := hsized.dif (Nat.le_refl (r'.st i).1.queue.enqueuePos) (by omega)
      refine Int.lt_of_le_of_lt (Int.le_of_eq hd) ?_
      show ((_ : Nat) : Int) - _ < 0
      omega
    rw [hlab] at hstep
    simp only [Atomic.step, reduceCtorEq, false_and, if_false, hpc, AtomicQueue.act, hdif.ne, hdif, if_true, Option.map_some,
      Option.some.injEq] at hstep
    refine ⟨t, hlab, .inr ⟨arg, ?_⟩⟩
    rw [← hstep]
    exact Function.update_self ..

end

theorem answers_truly {w n : Nat} {capacity : BitVec w} (hcap : capacity.toNat = c) (hc : 2 ≤ c) (hpow : ∃ j, j < w ∧ c = 2 ^ j)
    {throwing : Bool} (r : Run ((machine Tid (BitVec w) T backoff c throwing).logged (trace c)) n) (hk : KeepsUp c r)
    (hopen : ∀ i, i ≤ n → (r.st i).1.queue.closed = false) (hok : ∀ i, i < n → ¬ Misled capacity r i) :
    SaysEmptyTruly r ∧ SaysFullTruly capacity r := by
  obtain ⟨r', hlab, hr'⟩ := run_reads r hc hpow hk
  have hnum : ∀ i, i ≤ n → Numbered c (r'.st i).1 (r'.st i).2 := fun i hi => (hr' i hi).2.numbered
  have hst : ∀ i, i ≤ n → r.st i = words w (r'.st i) := fun i hi => (hr' i hi).1
  have lift : ∀ {t op a b reply}, Call r t op a b → (r.st b).1.pc t = .done none reply →
      Call r' t op a b ∧ (r'.st b).1.pc t = .done none reply := by
    intro t op a b reply hcall hd
    rw [hst b hcall.le] at hd
    exact ⟨⟨hcall.lt, hcall.le, by rw [hlab]; exact hcall.lab, by rw [hlab]; exact hcall.stays⟩, (map_done _).mp hd⟩
  constructor
  · intro t a b hcall hd
    obtain ⟨hcall', hd'⟩ := lift hcall hd
    obtain ⟨j, h1, h2, hn, hdone, hs⟩ := decides r' hcall' hd'
    have hj : j < n := Nat.lt_of_lt_of_le h2 hcall.le
    obtain ⟨hmove, ⟨spins, hpc⟩, hfound⟩ := (hnum j (by omega)).inv.decides_empty (by omega) hs hn hdone
    have hD : (popClaims (r.st j).2).length = (r'.st j).1.queue.dequeuePos := by
      rw [hst j (by omega)]
      exact (hnum j (by omega)).claims.2
    refine ⟨j, Nat.le_of_lt h1, Nat.le_of_lt h2, fun u h k i hi hacc => ?_⟩
    obtain ⟨hlt, hmark⟩ := hacc.posted hc hlab hst hnum hi (by omega)
    rw [hD]
    by_contra hge
    rcases hfound with he | ⟨he, hseq⟩
    · omega
    · have hne : k ≠ (r'.st j).1.queue.dequeuePos := by
        rintro rfl
        have := hmark (Nat.le_refl _)
        omega
      have hpc : (r.st j).1.pc t = .loadSequencePop (r.st j).1.queue.dequeuePos spins := by
        rw [hst j (by omega)]
        exact congrArg (Frame.map (word w)) hpc
      refine hok j hj (.pop (hlab ▸ hmove) hpc ?_ hacc hi (by omega))
      · have hcell := (Sized.mk (hnum j (by omega)).inv.lap hpow).cell (r'.st j).1.queue.dequeuePos
        rw [hst j (by omega), hcap]
        exact (congrArg Cell.sequence hcell).trans (congrArg (word w) hseq)
  · intro t x a b arg hcall hd
    obtain ⟨hcall', hd'⟩ := lift hcall hd
    obtain ⟨j, h1, h2, hn, hdone, hs⟩ := decides r' hcall' hd'
    have hj : j < n := Nat.lt_of_lt_of_le h2 hcall.le
    have ho := hopen j (by omega)
    rw [hst j (by omega)] at ho
    obtain ⟨hmove, ⟨spins, hpc⟩, hseq⟩ := (hnum j (by omega)).inv.decides_full (by omega) ho hs hn hdone
    refine ⟨j, Nat.le_of_lt h1, Nat.le_of_lt h2, ?_⟩
    by_contra hne
    have hpc : (r.st j).1.pc t = .loadSequence arg (r.st j).1.queue.enqueuePos spins := by
      rw [hst j (by omega)]
      exact congrArg (Frame.map (word w)) hpc
    refine hok j hj (.push (hlab ▸ hmove) hpc ?_ hne)
    · have hsized := Sized.mk (hnum j (by omega)).inv.lap hpow
      obtain ⟨-, h3, h4⟩ := hsized.half
      have hle := (hsized.lap.le_sequence hsized.pos (Nat.le_refl (r'.st j).1.queue.enqueuePos)).1
      rw [hst j (by omega), hcap]
      intro he
      have he := (congrArg Cell.sequence (hsized.cell (r'.st j).1.queue.enqueuePos)).symm.trans he
      have := (Counter.word_eq (w := w) (Nat.le_of_lt hseq) (by omega)).mp he.symm
      omega

end Atomic

/-! ## The three versions -/

open Atomic

variable {Tid T : Type} [DecidableEq Tid] [Elem T] {fuel : Nat} {requested capacity : BitVec 64}

/-- **When `false` is truthful.** In a run whose calls keep up, as long as no
call is misled by a push or a pop that has not finished with its cell, or that
never will after a throw; a call that is misled does answer `false`. -/
theorem false_answers (version : AtomicVersion) (throwing : Bool) (hcap : normalizeCapacity fuel requested = some capacity)
    {n : Nat} (r : Run (version.ticketed Tid T capacity throwing) n) (hopen : ∀ i, i ≤ n → (r.st i).1.queue.closed = false)
    (hk : KeepsUp capacity.toNat r) :
    ((∀ i, i < n → ¬ Misled capacity r i) → SaysEmptyTruly r ∧ SaysFullTruly capacity r) ∧
      ∀ i, i < n → Misled capacity r i → SettlesFalse r i := by
  obtain ⟨hc, hpow⟩ := AtomicVersion.capacity_spec hcap
  revert r
  rw [AtomicVersion.ticketed_eq]
  intro r hopen hk
  exact ⟨answers_truly rfl hc hpow r hk hopen, fun i hi h => h.answers rfl hc hpow hk hi⟩

def emptyThenFull : List (Label Unit Nat) :=
  [.call () .tryPop, .move () .go, .move () .go, .ret ()] ++ sixMoves 7 ++ sixMoves 8 ++
    [.call () (.emplace 9), .move () .go, .move () .go, .move () .go]
where
  sixMoves (arg : Nat) : List (Label Unit Nat) := .call () (.emplace arg) :: (List.replicate 6 (.move () .go) ++ [.ret ()])

def emptyThenFullRun : Run (AtomicVersion.V1.ticketed Unit Nat 2#64 true) 24 :=
  Run.ofExec _ (.ret ()) emptyThenFull (by decide)

theorem false_answers_true : SaysEmptyTruly emptyThenFullRun ∧ SaysFullTruly 2#64 emptyThenFullRun := by
  have hcount : ∀ i, i ≤ 24 → (pushClaims (emptyThenFullRun.st i).2).length ≤ 2 ∧
      (popClaims (emptyThenFullRun.st i).2).length ≤ 2 := by decide
  refine (false_answers .V1 true (show normalizeCapacity 3 2#64 = some 2#64 by decide) emptyThenFullRun (by decide) ?_).1 ?_
  · exact .of_le hcount (by decide)
  · intro i hi hmis
    cases hmis with
    | @pop t u spins h k j h1 h2 h3 hacc hj hlt =>
      have hlate : ∀ i, i ≤ 24 → 2 ≤ (pushClaims (emptyThenFullRun.st i).2).length → 17 ≤ i := by decide
      have hseq : ∀ i, i ≤ 24 → 17 ≤ i → ((emptyThenFullRun.st i).1.queue.cell 2 (emptyThenFullRun.st i).1.queue.dequeuePos).sequence ≠
          (emptyThenFullRun.st i).1.queue.dequeuePos := by decide
      have h5 := hacc.lt
      have h6 := hlate (h + 1) (by omega) (by rw [hacc.claimed]; omega)
      exact hseq i (by omega) (by omega) h3
    | @push t arg spins h1 h2 h3 h4 =>
      have hfull : ∀ i, i ≤ 24 → ((emptyThenFullRun.st i).1.queue.cell 2 (emptyThenFullRun.st i).1.queue.enqueuePos).sequence ≠
          (emptyThenFullRun.st i).1.queue.enqueuePos →
          (emptyThenFullRun.st i).1.queue.enqueuePos - (emptyThenFullRun.st i).1.queue.dequeuePos = 2#64 := by decide
      exact h4 (hfull i (by omega) h3)

/-! ## Neighbours that have not finished -/

def stalledPush : List (Label Bool Nat) :=
  [.call true (.emplace 7), .move true .go, .move true .go, .move true .go, .move true .go,
    .call false (.emplace 8), .move false .go, .move false .go, .move false .go, .move false .go, .move false .go,
    .move false .go, .ret false, .call false .tryPop, .move false .go, .move false .go]

def stalledPop : List (Label Bool Nat) :=
  [.call false (.emplace 7), .move false .go, .move false .go, .move false .go, .move false .go, .move false .go,
    .move false .go, .ret false, .call false (.emplace 8), .move false .go, .move false .go, .move false .go,
    .move false .go, .move false .go, .move false .go, .ret false,
    .call true .tryPop, .move true .go, .move true .go, .move true .go,
    .call false (.emplace 9), .move false .go, .move false .go, .move false .go]

def stalledPushRun : Run (AtomicVersion.V1.ticketed Bool Nat 2#64 false) 16 := Run.ofExec _ (.ret false) stalledPush (by decide)

def stalledPopRun : Run (AtomicVersion.V1.ticketed Bool Nat 2#64 false) 24 := Run.ofExec _ (.ret false) stalledPop (by decide)

theorem stalledPush_call : Call stalledPushRun false .tryPop 13 16 := ⟨by decide, by decide, rfl, by decide⟩

theorem stalledPop_call : Call stalledPopRun false (.emplace 9) 20 24 := ⟨by decide, by decide, rfl, by decide⟩

theorem stalledPush_accepts : Accepts stalledPushRun false 9 1 12 :=
  ⟨by decide, rfl, by decide, by decide, by decide, rfl, ⟨some 1, 8, by decide⟩⟩

theorem false_answers_early :
    ¬ SaysEmptyTruly stalledPushRun ∧ (∀ j, j ≤ 16 → (stalledPushRun.st j).1.queue.closed = false) ∧
    ¬ SaysFullTruly 2#64 stalledPopRun ∧ ∀ j, j ≤ 24 → (stalledPopRun.st j).1.queue.closed = false := by
  refine ⟨fun h => ?_, by decide, fun h => ?_, by decide⟩
  · obtain ⟨j, h1, h2, h3⟩ := h false 13 16 stalledPush_call (by decide)
    have hlt := h3 false 9 1 12 (by omega) stalledPush_accepts
    have hge : ∀ j, j ≤ 16 → (popClaims (stalledPushRun.st j).2).length = 0 := by decide
    have := hge j h2
    omega
  · obtain ⟨j, h1, h2, h3⟩ := h false 9 20 24 9 stalledPop_call (by decide)
    have hne : ∀ j, j ≤ 24 → 20 ≤ j →
        (stalledPopRun.st j).1.queue.enqueuePos - (stalledPopRun.st j).1.queue.dequeuePos ≠ 2#64 := by decide
    exact hne j h2 h1 h3

end Yutil
