import Yutil.AtomicDelivery
import Yutil.AtomicSequential
import Yutil.Objects

/-!
# Objects in the cells

A ticket gives its holder the cell alone, from the compare-exchange to the
store of the sequence number. A push finds the cell empty and a pop finds its
object, so that objects are built and destroyed in turn; what is left when all
calls have returned, the destructor pops.
-/

namespace Yutil

open Interleave

namespace Atomic

def holding {N T : Type} (f : Frame N T) : Option N := (pushTicket f).or (popTicket f)

structure Owned {Tid N T : Type} [Counter N] (c : Nat) (s : State Tid N T) : Prop where
  exclusive : ∀ t u j k, holding (s.pc t) = some j → holding (s.pc u) = some k → Counter.slot c j = Counter.slot c k → t = u
  construct : ∀ t arg k, s.pc t = .construct arg k → (s.queue.cell c k).storage = none
  moveOut : ∀ t k, s.pc t = .moveOut k → (s.queue.cell c k).storage.isSome = true
  destroy : ∀ t k out, s.pc t = .destroy k out → (s.queue.cell c k).storage.isSome = true

section
variable {Tid T : Type} {c : Nat} {s : State Tid Nat T}

theorem Inv.push_window (h : Inv c s) {t : Tid} {k : Nat} (ht : pushTicket (s.pc t) = some k) :
    s.queue.dequeuePos ≤ k ∧ k < s.queue.enqueuePos := by
  have hf := h.frames t
  cases hpc : s.pc t with
  | construct arg pos => rw [hpc] at hf ht; cases ht; exact ⟨hf.1, hf.2.1⟩
  | publish arg pos => rw [hpc] at hf ht; cases ht; exact ⟨hf.1, hf.2.1⟩
  | _ => rw [hpc] at ht; cases ht

theorem holding_cases {N : Type} {f : Frame N T} {k : N} (h : holding f = some k) :
    pushTicket f = some k ∨ popTicket f = some k := by
  cases f with
  | construct arg pos => exact .inl h
  | publish arg pos => exact .inl h
  | moveOut pos => exact .inr h
  | destroy pos out => exact .inr h
  | release pos out => exact .inr h
  | _ => cases h

/-- A push holds a cell of the window of the values, a pop one of the window after it. -/
theorem Inv.owned (h : Inv c s) : Owned c s := by
  have hle := h.lap.le
  have hb := h.lap.bound
  -- a push and a pop hold different cells
  have apart : ∀ {t u j k}, pushTicket (s.pc t) = some j → popTicket (s.pc u) = some k → j % c ≠ k % c := by
    intro t u j k hj hk hmod
    obtain ⟨h1, h2⟩ := h.push_window hj
    obtain ⟨h3, h4, -⟩ := Life.pop_bounds h hk
    have hmod : j % c = (k + c) % c := by rwa [Nat.add_mod_right]
    have := Counter.window_inj h1 (by omega) (by omega) (by omega) hmod
    omega
  refine ⟨fun t u j k hj hk hslot => ?_, fun t arg k hpc => (Life.construct_bounds h hpc).2.2.2, fun t k hpc => ?_,
    fun t k out hpc => ?_⟩
  · have hslot : j % c = k % c := hslot
    rcases holding_cases hj with hj | hj
    · rcases holding_cases hk with hk | hk
      · obtain ⟨h1, h2⟩ := h.push_window hj
        obtain ⟨h3, h4⟩ := h.push_window hk
        have he := Counter.window_inj h1 (by omega) h3 (by omega) hslot
        exact h.pushers t u j hj (he ▸ hk)
      · exact absurd hslot (apart hj hk)
    · rcases holding_cases hk with hk | hk
      · exact absurd hslot.symm (apart hk hj)
      · obtain ⟨h1, h2, -⟩ := Life.pop_bounds h hj
        obtain ⟨h3, h4, -⟩ := Life.pop_bounds h hk
        have hmod : (j + c) % c = (k + c) % c := by rwa [Nat.add_mod_right, Nat.add_mod_right]
        have he := Counter.window_inj (d := s.queue.dequeuePos) (by omega) (by omega) (by omega) (by omega) hmod
        obtain rfl : j = k := by omega
        exact h.poppers t u j hj hk
  · have := h.frames t
    rw [hpc] at this
    exact this.2.2.2
  · have := h.frames t
    rw [hpc] at this
    exact this.2.2.2

variable {w : Nat}

theorem holding_map (g : Nat → BitVec w) (f : Frame Nat T) : holding (f.map g) = (holding f).map g := by
  cases f <;> rfl

theorem Owned.words (h : Owned c s) (hq : Fits w c s.queue) : Owned c (s.map (word w)) := by
  have storage : ∀ k, ((s.map (word w)).queue.cell c (word w k)).storage = (s.queue.cell c k).storage := by
    intro k
    show ((s.queue.map (word w)).cell c (word w k)).storage = _
    rw [hq.cell k]
    rfl
  refine ⟨fun t u j k hj hk hslot => ?_, fun t arg k hpc => ?_, fun t k hpc => ?_, fun t k out hpc => ?_⟩
  · have hj : holding ((s.pc t).map (word w)) = some j := hj
    have hk : holding ((s.pc u).map (word w)) = some k := hk
    rw [holding_map, Option.map_eq_some_iff] at hj hk
    obtain ⟨j', hj', rfl⟩ := hj
    obtain ⟨k', hk', rfl⟩ := hk
    rw [Counter.slot_word hq.pow, Counter.slot_word hq.pow] at hslot
    exact h.exclusive t u j' k' hj' hk' hslot
  · have hpc : (s.pc t).map (word w) = .construct arg k := hpc
    cases hp : s.pc t with
    | construct a j => rw [hp] at hpc; cases hpc; rw [storage]; exact h.construct t _ j hp
    | _ => rw [hp] at hpc; cases hpc
  · have hpc : (s.pc t).map (word w) = .moveOut k := hpc
    cases hp : s.pc t with
    | moveOut j => rw [hp] at hpc; cases hpc; rw [storage]; exact h.moveOut t j hp
    | _ => rw [hp] at hpc; cases hpc
  · have hpc : (s.pc t).map (word w) = .destroy k out := hpc
    cases hp : s.pc t with
    | destroy j o => rw [hp] at hpc; cases hpc; rw [storage]; exact h.destroy t j _ hp
    | _ => rw [hp] at hpc; cases hpc

end

/-! ## The log of the objects -/

section
variable {Tid N T : Type} [DecidableEq Tid] [DecidableEq N] [Counter N] [Elem T]

def objects (c : Nat) (s : State Tid N T) : Label Tid T → List (Nat × ObjectEvent)
  | .move t .go =>
    match s.pc t with
    | .construct _ pos => [(Counter.slot c pos, .built)]
    | .destroy pos _ => [(Counter.slot c pos, .destroyed)]
    | _ => []
  | _ => []

def storage (q : AtomicQueue N T) (i : Nat) : Option T := (q.cells i).storage

omit [DecidableEq N] [Elem T] in
theorem storage_place (c : Nat) (q : AtomicQueue N T) (pos : N) (x : Option T) :
    storage (q.place c pos x) = Function.update (storage q) (Counter.slot c pos) x := by
  funext i
  by_cases hi : i = Counter.slot c pos
  · subst hi
    simp only [storage, AtomicQueue.place, Function.update_self]
  · simp only [storage, AtomicQueue.place, Function.update_of_ne hi]

omit [DecidableEq N] [Elem T] in
theorem storage_store (c : Nat) (q : AtomicQueue N T) (pos x : N) : storage (q.store c pos x) = storage q := by
  funext i
  by_cases hi : i = Counter.slot c pos
  · subst hi
    simp only [storage, AtomicQueue.store, AtomicQueue.cell, Function.update_self]
  · simp only [storage, AtomicQueue.store, Function.update_of_ne hi]

variable {backoff : Nat → Nat} {c : Nat} {s s' : State Tid N T} {log : List (Nat × ObjectEvent)}

theorem kept_step {a : Label Tid T} (ho : Owned c s) (h : Kept (storage s.queue) log)
    (hs : step backoff c false s a = some s') : Kept (storage s'.queue) (log ++ objects c s a) := by
  have quiet : objects c s a = [] → storage s'.queue = storage s.queue → Kept (storage s'.queue) (log ++ objects c s a) := by
    intro h1 h2
    rw [h1, h2, List.append_nil]
    exact h
  cases step_spec hs with
  | call _ => exact quiet rfl rfl
  | ret _ => exact quiet rfl rfl
  | @move t m q f hm ha =>
    have hconstruct := ho.construct t
    have hmove := ho.moveOut t
    have hdestroy := ho.destroy t
    generalize hpc : s.pc t = g at ha hconstruct hmove hdestroy
    have same : objects c s (.move t m) = [] → storage q = storage s.queue → Kept (storage q) (log ++ objects c s (.move t m)) :=
      fun h1 h2 => quiet h1 h2
    cases ha with
    | @construct arg pos =>
      have he : objects c s (.move t .go) = [(Counter.slot c pos, .built)] := by simp only [objects, hpc]
      rw [he, storage_place]
      exact h.build (hconstruct _ _ rfl) arg
    | @destroy pos out =>
      have he : objects c s (.move t .go) = [(Counter.slot c pos, .destroyed)] := by simp only [objects, hpc]
      rw [he, storage_place]
      exact h.destroy (hdestroy _ _ rfl)
    | @moveOut pos value hv =>
      have he : objects c s (.move t .go) = [] := by simp only [objects, hpc]
      rw [he, storage_place, List.append_nil]
      exact h.replace (hmove _ rfl).symm
    | publish => exact same (by simp only [objects, hpc]) (storage_store ..)
    | release => exact same (by simp only [objects, hpc]) (storage_store ..)
    | constructThrows => exact Bool.noConfusion (hm rfl)
    | moveOutThrows => exact Bool.noConfusion (hm rfl)
    | lost hl | lostPop hl =>
      refine same ?_ rfl
      rcases hl with ⟨rfl, -⟩ | rfl
      · simp only [objects, hpc]
      · rfl
    | _ => exact same (by simp only [objects, hpc]) rfl

end

/-! ## The destructor -/

section
variable {Tid N T : Type} [DecidableEq Tid] [DecidableEq N] [Counter N] [Elem T]

/-- `drain_remaining`, run by thread `t`: pops until one finds nothing, with the labels of its steps and what it pops. -/
inductive DrainRemaining (M : Machine (State Tid N T) (Label Tid T)) (t : Tid) :
    State Tid N T → List (Label Tid T) → List T → State Tid N T → Prop
  | stop {s s₁ s' : State Tid N T} {ms : List Move} {k : Option N} :
      M.execFrom s (.call t .tryPop :: ms.map (.move t)) = some s₁ → s₁.pc t = .done k (.popped none) →
      M.step s₁ (.ret t) = some s' → DrainRemaining M t s (.call t .tryPop :: ms.map (.move t) ++ [.ret t]) [] s'
  | next {s s₁ s₂ s' : State Tid N T} {ms : List Move} {k : Option N} {value : T} {as : List (Label Tid T)} {vs : List T} :
      M.execFrom s (.call t .tryPop :: ms.map (.move t)) = some s₁ → s₁.pc t = .done k (.popped (some value)) →
      M.step s₁ (.ret t) = some s₂ → DrainRemaining M t s₂ as vs s' →
      DrainRemaining M t s (.call t .tryPop :: ms.map (.move t) ++ [.ret t] ++ as) (value :: vs) s'

omit [DecidableEq Tid] [DecidableEq N] [Counter N] [Elem T] in
theorem DrainRemaining.exec {M : Machine (State Tid N T) (Label Tid T)} {t : Tid} {s s' : State Tid N T}
    {as : List (Label Tid T)} {vs : List T} (h : DrainRemaining M t s as vs s') : M.execFrom s as = some s' := by
  induction h with
  | stop he _ hret =>
    rw [Machine.execFrom_append, he]
    exact (Machine.execFrom_cons hret).trans rfl
  | next he _ hret _ ih =>
    rw [Machine.execFrom_append, Machine.execFrom_append, he]
    simp only [Option.bind_some, Machine.execFrom, hret]
    exact ih

end

section
variable {Tid T : Type} [DecidableEq Tid] [Elem T] {w c : Nat} {backoff : Nat → Nat} {s s' : State Tid (BitVec w) T} {t : Tid}
  {xs : List T} (hc : ∃ j, 0 < j ∧ j < w ∧ c = 2 ^ j)

include hc

theorem pop_alone (h : s.queue.Holds c xs) {r : Reply T} (hcalls : Calls (machine Tid (BitVec w) T backoff c false) s t .tryPop r s') :
    s'.pc = s.pc ∧ r.res = some (TryOp.tryPop.run c xs).2 ∧ s'.queue.Holds c (TryOp.tryPop.run c xs).1 := by
  obtain ⟨-, ms, k, ha, hpc, hm⟩ := hcalls.acts
  have ht := acts_track hc h .tryPop (.inl rfl) (fun m hmem he => hm m hmem ⟨he, rfl⟩) ha
  cases r with
  | popped out =>
    obtain ⟨h1, h2, -⟩ := tracks_done hc h ht rfl
    exact ⟨hpc, congrArg some h1, h2⟩
  | _ => exact ht.elim

theorem drains_spec {as : List (Label Tid T)} {vs : List T} (h : s.queue.Holds c xs)
    (hd : DrainRemaining (machine Tid (BitVec w) T backoff c false) t s as vs s') :
    vs = xs ∧ s'.pc = s.pc ∧ s'.queue.Holds c [] := by
  induction hd generalizing xs with
  | @stop s s₁ s' ms k he hpc hret =>
    obtain ⟨h1, h2, h3⟩ := pop_alone hc h ⟨ms, s₁, k, he, hpc, hret⟩
    cases xs with
    | nil => exact ⟨rfl, h1, h3⟩
    | cons x rest => cases h2
  | @next s s₁ s₂ s' ms k value as vs he hpc hret _ ih =>
    obtain ⟨h1, h2, h3⟩ := pop_alone hc h ⟨ms, s₁, k, he, hpc, hret⟩
    cases xs with
    | nil => cases h2
    | cons x rest =>
      cases h2
      obtain ⟨h4, h5, h6⟩ := ih h3
      exact ⟨congrArg (value :: ·) h4, h5.trans h1, h6⟩

theorem drains_exists (backoff : Nat → Nat) (h : s.queue.Holds c xs) (hidle : s.pc t = .idle) :
    ∃ as vs s', DrainRemaining (machine Tid (BitVec w) T backoff c false) t s as vs s' := by
  have call : ∀ {s : State Tid (BitVec w) T} {xs : List T}, s.queue.Holds c xs → s.pc t = .idle →
      ∃ r s', Calls (machine Tid (BitVec w) T backoff c false) s t .tryPop r s' := by
    intro s xs h hidle
    obtain ⟨ms, q', k, reply, r, hm, ha, -⟩ := acts_finish hc backoff h .tryPop (.inl rfl)
    refine ⟨reply, _, calls_of_acts (fun m hmem he => ?_) hidle ha⟩
    rw [hm m hmem] at he
    cases he
  induction xs generalizing s with
  | nil =>
    obtain ⟨r, s', hcalls⟩ := call h hidle
    obtain ⟨-, h2, -⟩ := pop_alone hc h hcalls
    obtain ⟨ms, s₁, k, he, hpc, hret⟩ := hcalls
    cases r with
    | popped out => cases h2; exact ⟨_, _, _, .stop he hpc hret⟩
    | _ => cases h2
  | cons x rest ih =>
    obtain ⟨r, s₂, hcalls⟩ := call h hidle
    obtain ⟨h1, h2, h3⟩ := pop_alone hc h hcalls
    obtain ⟨ms, s₁, k, he, hpc, hret⟩ := hcalls
    obtain ⟨as, vs, s', hd⟩ := ih h3 (by rw [h1]; exact hidle)
    cases r with
    | popped out => cases h2; exact ⟨_, _, _, .next he hpc hret hd⟩
    | _ => cases h2

omit [DecidableEq Tid] [Elem T] hc in
theorem storage_empty {q : AtomicQueue (BitVec w) T} (hc : ∃ j, j < w ∧ c = 2 ^ j) (h : q.Holds c []) {i : Nat}
    (hi : i < c) : storage q i = none := by
  obtain ⟨j, h1, h2, h3⟩ := Counter.exists_window (Nat.lt_of_le_of_lt (Nat.zero_le i) hi) q.dequeuePos.toNat i
  obtain ⟨n, rfl⟩ := Nat.exists_eq_add_of_le h1
  have hcell : q.cells (Counter.slot c (Counter.plus q.dequeuePos n)) = ⟨Counter.plus q.dequeuePos n, none⟩ :=
    h.free n (Nat.zero_le n) (by omega)
  rw [Counter.slot_plus hc, h3, Nat.mod_eq_of_lt hi] at hcell
  unfold storage
  rw [hcell]

/-! ## What the calls leave behind -/

omit [DecidableEq Tid] hc in
theorem Life.at_rest {s : State Tid Nat T} {k : Nat} {l : List (TicketEvent Tid Nat T)} (h : Life c s k l)
    (hidle : ∀ t, s.pc t = .idle) : s.queue.enqueuePos ≤ k ∨
      (s.queue.dequeuePos ≤ k ∧ ∃ v, s.queue.cell c k = ⟨k + 1, some v⟩) ∨
      (k < s.queue.dequeuePos ∧ (s.queue.enqueuePos ≤ k + c → (s.queue.cell c k).sequence ≠ k + 1)) := by
  have nobody : ∀ {t f}, s.pc t = f → f ≠ .idle → False := fun hpc hne => hne (hpc.symm.trans (hidle _))
  cases h with
  | unclaimed hk => exact .inl hk
  | claimed hp => exact (nobody hp (by simp)).elim
  | constructed hp => exact (nobody hp (by simp)).elim
  | published hd _ hs hv => exact .inr (.inl ⟨hd, _, congrArg₂ Cell.mk hs hv⟩)
  | popClaimed hp => exact (nobody hp (by simp)).elim
  | movedOut hp =>
    rcases hp with hp | hp
    · exact (nobody hp (by simp)).elim
    · exact (nobody hp (by simp)).elim
  | released hk _ hne => exact .inr (.inr ⟨hk, hne⟩)

omit [DecidableEq Tid] hc in
/-- When all calls have returned, every cell of the values is published and every other one is free. -/
theorem Recorded.holds {y : State Tid Nat T} {log : List (TicketEvent Tid Nat T)} (h : Recorded c y log)
    (hq : Fits w c y.queue) (hidle : ∀ t, y.pc t = .idle) :
    ∃ xs : List T, xs.length = y.queue.enqueuePos - y.queue.dequeuePos ∧ (y.queue.map (word w)).Holds c xs := by
  have hle := h.inv.lap.le
  have hb := h.inv.lap.bound
  have published : ∀ k, y.queue.dequeuePos ≤ k → k < y.queue.enqueuePos →
      y.queue.cell c k = ⟨k + 1, some ((y.queue.cell c k).storage.getD default)⟩ := by
    intro k h1 h2
    rcases (h.life k).at_rest hidle with hk | ⟨-, v, hv⟩ | ⟨hk, -⟩
    · omega
    · rw [hv]
      rfl
    · omega
  have free : ∀ k, y.queue.enqueuePos ≤ k → k < y.queue.dequeuePos + c → y.queue.cell c k = ⟨k, none⟩ := by
    intro k h1 h2
    rcases h.inv.lap.free k h1 h2 with ⟨hs, hv⟩ | ⟨hck, hs⟩
    · exact congrArg₂ Cell.mk hs hv
    · -- the pop of the last lap has released the cell
      obtain ⟨k, rfl⟩ := Nat.exists_eq_add_of_le hck
      rw [Nat.add_comm c k] at h1 h2 hs
      rw [cell_lap] at hs
      rcases (h.life k).at_rest hidle with hk | ⟨hk, -⟩ | ⟨-, hne⟩
      · omega
      · omega
      · have := hne h1
        omega
  have cell : ∀ i, (y.queue.map (word w)).cell c (Counter.plus (word w y.queue.dequeuePos) i) =
      (y.queue.cell c (y.queue.dequeuePos + i)).map (word w) := by
    intro i
    rw [Counter.plus_word]
    exact hq.cell _
  have hlen : ((List.range (y.queue.enqueuePos - y.queue.dequeuePos)).map fun i =>
      ((y.queue.cell c (y.queue.dequeuePos + i)).storage.getD default)).length =
        y.queue.enqueuePos - y.queue.dequeuePos := by rw [List.length_map, List.length_range]
  refine ⟨_, hlen, ?_, ?_, fun i hi => ?_, fun i hi hic => ?_⟩
  · rw [hlen]
    omega
  · show word w y.queue.enqueuePos = Counter.plus (word w y.queue.dequeuePos) _
    rw [hlen, Counter.plus_word, Nat.add_sub_cancel' hle]
  · rw [hlen] at hi
    show (y.queue.map (word w)).cell c (Counter.plus (word w y.queue.dequeuePos) i) =
      ⟨Counter.plus (word w y.queue.dequeuePos) (i + 1), _⟩
    rw [cell, published _ (by omega) (by omega), List.getElem?_map, List.getElem?_range hi, Counter.plus_word]
    rfl
  · rw [hlen] at hi
    show (y.queue.map (word w)).cell c (Counter.plus (word w y.queue.dequeuePos) i) =
      ⟨Counter.plus (word w y.queue.dequeuePos) i, none⟩
    rw [cell, free _ (by omega) (by omega), Counter.plus_word]
    rfl

end

/-! ## The destructor takes no push ticket -/

section
variable {Tid N T : Type} [DecidableEq Tid] [DecidableEq N] [Counter N] [Elem T] {backoff : Nat → Nat} {c : Nat}
  {s s' : State Tid N T} {t : Tid}

def PopFrame : Frame N T → Prop
  | .loadDequeue _ | .loadSequencePop _ _ | .claimPop _ _ | .moveOut _ | .destroy _ _ | .release _ _ | .done _ _ => True
  | _ => False

omit [DecidableEq N] in
theorem PopFrame.act {q q' : AtomicQueue N T} {m : Move} {f f' : Frame N T} (h : PopFrame f)
    (ha : q.Acts backoff c m f q' f') : PopFrame f' := by
  cases ha with
  | refused | admitted | loadEnqueue | ready | full | passed | claim | lost | construct | constructThrows | publish =>
    exact h.elim
  | _ => trivial

omit [DecidableEq Tid] in
theorem PopFrame.trace {m : Move} (h : PopFrame (s.pc t)) : pushClaims (trace c s (.move t m)) = [] := by
  cases m with
  | go =>
    simp only [Atomic.trace]
    cases hpc : s.pc t with
    | claim arg pos spins => rw [hpc] at h; exact h.elim
    | claimPop pos spins => simp only; split <;> rfl
    | _ => rfl
  | _ => rfl

theorem pop_claims {ms : List Move} (log : List (TicketEvent Tid N T))
    (he : (machine Tid N T backoff c false).execFrom s (.call t .tryPop :: ms.map (.move t)) = some s') :
    ∃ log', ((machine Tid N T backoff c false).logged (trace c)).execFrom (s, log) (.call t .tryPop :: ms.map (.move t)) =
      some (s', log') ∧ pushClaims log' = pushClaims log := by
  obtain ⟨log', hlog⟩ := Machine.logged_exec (trace c) log he
  refine ⟨log', hlog, ?_⟩
  obtain ⟨x, hx, hrest⟩ := Machine.execFrom_cons_some hlog
  obtain ⟨h1, h2⟩ := Machine.logged_step.mp hx
  have h1 : step backoff c false s (.call t .tryPop) = some x.1 := h1
  have h2 : x.2 = log := h2.trans (List.append_nil log)
  have hpop : PopFrame (x.1.pc t) := by
    generalize x.1 = u at h1
    cases step_spec h1 with
    | call _ =>
      simp only [Function.update_self]
      trivial
  have hthrough := Machine.Through.of_invariant (A := fun a => ∃ m, a = .move t m)
    (Q := fun x => PopFrame (x.1.pc t) ∧ pushClaims x.2 = pushClaims log) ?_ ⟨hpop, by rw [h2]⟩ ?_ hrest
  · exact hthrough.final.2
  · intro x a x' ha hq hs
    obtain ⟨m, rfl⟩ := ha
    obtain ⟨h3, h4⟩ := Machine.logged_step.mp hs
    have h3 : step backoff c false x.1 (.move t m) = some x'.1 := h3
    constructor
    · generalize x'.1 = u at h3
      cases step_spec h3 with
      | move _ hacts =>
        simp only [Function.update_self]
        exact hq.1.act hacts
    · rw [h4, pushClaims_append, hq.1.trace, List.append_nil]
      exact hq.2
  · intro a ha
    obtain ⟨m, -, rfl⟩ := List.mem_map.mp ha
    exact ⟨m, rfl⟩

theorem drains_claims {as : List (Label Tid T)} {vs : List T}
    (hd : DrainRemaining (machine Tid N T backoff c false) t s as vs s') (log : List (TicketEvent Tid N T)) :
    ∃ log', ((machine Tid N T backoff c false).logged (trace c)).execFrom (s, log) as = some (s', log') ∧
      pushClaims log' = pushClaims log := by
  induction hd generalizing log with
  | @stop s s₁ s' ms k he _ hret =>
    obtain ⟨log', h1, h2⟩ := pop_claims log he
    refine ⟨log' ++ [], ?_, by rw [List.append_nil, h2]⟩
    rw [Machine.execFrom_append, h1]
    exact (Machine.execFrom_cons (Machine.logged_step.mpr ⟨hret, rfl⟩)).trans rfl
  | @next s s₁ s₂ s' ms k value as vs he _ hret _ ih =>
    obtain ⟨log', h1, h2⟩ := pop_claims log he
    obtain ⟨log'', h3, h4⟩ := ih (log' ++ [])
    refine ⟨log'', ?_, h4.trans (by rw [List.append_nil, h2])⟩
    rw [Machine.execFrom_append, Machine.execFrom_append, h1]
    have hs : ((machine Tid N T backoff c false).logged (trace c)).step (s₁, log') (.ret t) = some (s₂, log' ++ []) :=
      Machine.logged_step.mpr ⟨hret, rfl⟩
    simp only [Option.bind_some]
    rw [Machine.execFrom_cons hs]
    exact h3

end

end Atomic

open Atomic

variable {Tid T : Type} [DecidableEq Tid] [Elem T] {fuel : Nat} {requested capacity : BitVec 64} {version : AtomicVersion}

namespace AtomicVersion

variable {x : State Tid (BitVec 64) T × List (TicketEvent Tid (BitVec 64) T)}

def objectMachine (version : AtomicVersion) (Tid T : Type) [DecidableEq Tid] [Elem T] (capacity : BitVec 64) :
    Machine ((State Tid (BitVec 64) T × List (TicketEvent Tid (BitVec 64) T)) × List (Nat × ObjectEvent)) (Label Tid T) :=
  (version.recorded Tid T capacity).logged fun x a => objects capacity.toNat x.1 a

theorem owned (hcap : normalizeCapacity fuel requested = some capacity) (hr : (version.recorded Tid T capacity).Reachable x)
    (hlt : (pushClaims x.2).length < 2 ^ 63 - capacity.toNat) : Owned capacity.toNat x.1 := by
  obtain ⟨y, hR, hroom, rfl⟩ := reads hcap hr hlt
  exact hR.inv.owned.words (hR.inv.fits (capacity_spec hcap).2 hroom)

theorem kept (hcap : normalizeCapacity fuel requested = some capacity) {objs : List (Nat × ObjectEvent)}
    (hr : (version.objectMachine Tid T capacity).Reachable (x, objs))
    (hlt : (pushClaims x.2).length < 2 ^ 63 - capacity.toNat) : Kept (storage x.1.queue) objs := by
  refine hr.invariant (I := fun z => (pushClaims z.1.2).length < 2 ^ 63 - capacity.toNat → Kept (storage z.1.1.queue) z.2)
    ?_ ?_ hlt
  · intro _
    show Kept (storage (version.machine Tid T capacity false).start.queue) []
    rw [machine_eq]
    exact Kept.start
  · intro z a z' hz hI hs hlt
    obtain ⟨h1, h2⟩ := Machine.logged_step.mp hs
    obtain ⟨h3, h4⟩ := Machine.logged_step.mp h1
    rw [h4, pushClaims_append, List.length_append] at hlt
    rw [machine_eq] at h3
    have hlt : (pushClaims z.1.2).length < 2 ^ 63 - capacity.toNat := by omega
    rw [h2]
    exact kept_step (owned hcap (Machine.logged_reachable hz) hlt) (hI hlt) h3

theorem holds (hcap : normalizeCapacity fuel requested = some capacity) (hr : (version.recorded Tid T capacity).Reachable x)
    (hlt : (pushClaims x.2).length < 2 ^ 63 - capacity.toNat) (hidle : ∀ t, x.1.pc t = .idle) :
    ∃ xs : List T, xs.length = (x.1.queue.enqueuePos - x.1.queue.dequeuePos).toNat ∧ x.1.queue.Holds capacity.toNat xs := by
  obtain ⟨y, hR, hroom, rfl⟩ := reads hcap hr hlt
  have hle := hR.inv.lap.le
  have hidle : ∀ t, y.1.pc t = .idle := by
    intro t
    have hmap : (y.1.pc t).map (word 64) = .idle := hidle t
    cases hpc : y.1.pc t with
    | idle => rfl
    | _ => rw [hpc] at hmap; cases hmap
  obtain ⟨xs, hlen, hxs⟩ := hR.holds (hR.inv.fits (capacity_spec hcap).2 hroom) hidle
  refine ⟨xs, ?_, hxs⟩
  show _ = (word 64 y.1.queue.enqueuePos - word 64 y.1.queue.dequeuePos).toNat
  rw [hlen, Counter.word_sub hle (by omega)]

end AtomicVersion

/-- **A cell has one owner, and its objects are built and destroyed in turn.**
The destructor, run when all calls have returned, pops what is between the
counters and stops, and then every object that was built is destroyed. -/
theorem cells_owned_and_drained (version : AtomicVersion) (hcap : normalizeCapacity fuel requested = some capacity)
    {s : State Tid (BitVec 64) T} {log : List (TicketEvent Tid (BitVec 64) T)} {objs : List (Nat × ObjectEvent)}
    (hr : (version.objectMachine Tid T capacity).Reachable ((s, log), objs))
    (hlt : (pushClaims log).length < 2 ^ 63 - capacity.toNat) :
    Owned capacity.toNat s ∧ Kept (storage s.queue) objs ∧
    ((∀ t, s.pc t = .idle) → ∀ t,
      (∃ as vs s', DrainRemaining (version.machine Tid T capacity false) t s as vs s') ∧
      ∀ as vs s', DrainRemaining (version.machine Tid T capacity false) t s as vs s' →
        vs.length = (s.queue.enqueuePos - s.queue.dequeuePos).toNat ∧
        (∀ i, i < capacity.toNat → storage s'.queue i = none) ∧
        ∃ log' objs', (version.objectMachine Tid T capacity).execFrom ((s, log), objs) as = some ((s', log'), objs') ∧
          ∀ i, i < capacity.toNat → Gone (ofSlot i objs')) := by
  have hpow := normalizeCapacity_spec (by decide) hcap
  have hpow' := (AtomicVersion.capacity_spec hcap).2
  have hrec := Machine.logged_reachable hr
  refine ⟨AtomicVersion.owned hcap hrec hlt, AtomicVersion.kept hcap hr hlt, fun hidle t => ?_⟩
  obtain ⟨xs, hlen, hxs⟩ := AtomicVersion.holds hcap hrec hlt hidle
  constructor
  · rw [AtomicVersion.machine_eq]
    exact drains_exists hpow version.backoff hxs (hidle t)
  · intro as vs s' hd
    have hd' := hd
    rw [AtomicVersion.machine_eq] at hd'
    obtain ⟨hvs, -, hempty⟩ := drains_spec hpow hxs hd'
    have hnone : ∀ i, i < capacity.toNat → storage s'.queue i = none := fun i hi => storage_empty hpow' hempty hi
    refine ⟨by rw [hvs, hlen], hnone, ?_⟩
    obtain ⟨log', hlog, hclaims⟩ := drains_claims hd' log
    rw [← AtomicVersion.machine_eq] at hlog
    obtain ⟨objs', hobjs⟩ := Machine.logged_exec (fun x a => objects capacity.toNat x.1 a) objs hlog
    refine ⟨log', objs', hobjs, fun i hi => ?_⟩
    have hreach := Machine.execFrom_reachable hr as hobjs
    have hlive := AtomicVersion.kept hcap hreach (by rw [hclaims]; exact hlt) i
    rw [hnone i hi] at hlive
    exact hlive.gone

def pushesAndPop : List (Label Bool Nat) :=
  [.call true (.emplace 7), .move true .go, .move true .go, .move true .go, .move true .go, .move true .go, .move true .go, .ret true,
    .call true (.emplace 8), .move true .go, .move true .go, .move true .go, .move true .go, .move true .go, .move true .go, .ret true,
    .call false .tryPop, .move false .go, .move false .go, .move false .go, .move false .go, .move false .go, .move false .go,
    .ret false]

theorem cells_owned_and_drained_one : ∃ x, (AtomicVersion.V2.objectMachine Bool Nat 2#64).exec pushesAndPop = some x ∧
    ∃ as vs s', DrainRemaining (AtomicVersion.V2.machine Bool Nat 2#64 false) true x.1.1 as vs s' ∧ vs.length = 1 := by
  have hrun : ((AtomicVersion.V2.objectMachine Bool Nat 2#64).exec pushesAndPop).map (fun x =>
      ((pushClaims x.1.2).length, x.1.1.pc true, x.1.1.pc false,
        (x.1.1.queue.enqueuePos - x.1.1.queue.dequeuePos).toNat)) = some (2, .idle, .idle, 1) := by decide
  obtain ⟨x, hx, he⟩ := Option.map_eq_some_iff.mp hrun
  simp only [Prod.mk.injEq] at he
  obtain ⟨h1, h2, h3, h4⟩ := he
  have hcap : normalizeCapacity 3 2#64 = some 2#64 := by decide
  have hidle : ∀ t, x.1.1.pc t = .idle := fun t => by cases t <;> assumption
  obtain ⟨-, -, h⟩ := cells_owned_and_drained .V2 hcap (Machine.exec_reachable _ hx) (by rw [h1]; decide)
  obtain ⟨⟨as, vs, s', hd⟩, hall⟩ := h hidle true
  exact ⟨x, hx, as, vs, s', hd, (hall as vs s' hd).1.trans h4⟩

end Yutil
