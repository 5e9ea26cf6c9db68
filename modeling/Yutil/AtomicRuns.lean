import Yutil.AtomicDelivery

/-!
# Runs of any length

The counters of a long run wrap, and its tickets come around again. As long as
no call is overtaken by half of their range of other tickets, a run over words
is still one over naturals, label by label.
-/

namespace Yutil

open Interleave

namespace Atomic

/-! ## Claims and counters -/

section
variable {Tid T : Type} [Elem T] {backoff : Nat → Nat} {c : Nat} {s s' : State Tid Nat T} {t : Tid} {m : Move}
  {q : NatQueue T} {f : Frame Nat T} {log : List (TicketEvent Tid Nat T)}

theorem Steps.frame {N : Type} [DecidableEq Tid] [DecidableEq N] [Counter N] {throwing : Bool} {a : Label Tid T}
    {s s' : State Tid N T} (h : Steps backoff c throwing s a s') (t : Tid) :
    s'.pc t = s.pc t ∨ (∃ op, s'.pc t = AtomicQueue.enter op) ∨ s'.pc t = .idle ∨
      ∃ m, a = .move t m ∧ s.queue.Acts backoff c m (s.pc t) s'.queue (s'.pc t) := by
  cases h with
  | @call u op _ =>
    by_cases hu : t = u
    · subst hu; exact .inr (.inl ⟨op, by simp⟩)
    · exact .inl (by simp [hu])
  | @move u m q f _ ha =>
    by_cases hu : t = u
    · subst hu; exact .inr (.inr (.inr ⟨m, rfl, by simpa using ha⟩))
    · exact .inl (by simp [hu])
  | @ret u _ _ _ =>
    by_cases hu : t = u
    · subst hu; exact .inr (.inr (.inl (by simp)))
    · exact .inl (by simp [hu])

theorem Steps.answered {N : Type} [DecidableEq Tid] [DecidableEq N] [Counter N] {throwing : Bool} {a : Label Tid T}
    {s s' : State Tid N T} (h : Steps backoff c throwing s a s') {k : Option N} {r : Reply T} (hn : s.pc t ≠ .done k r) (hd : s'.pc t = .done k r) :
    ∃ m, a = .move t m ∧ s.queue.Acts backoff c m (s.pc t) s'.queue (.done k r) := by
  rcases h.frame t with hf | ⟨op, hf⟩ | hf | ⟨m, ha, hf⟩
  · exact absurd (hf.symm.trans hd) hn
  · rw [hd] at hf
    cases op <;> cases hf
  · rw [hd] at hf
    cases hf
  · rw [hd] at hf
    exact ⟨m, ha, hf⟩

theorem Acts_pushClaims (ha : s.queue.Acts backoff c m (s.pc t) q f) :
    q.enqueuePos = s.queue.enqueuePos ∧ pushClaims (trace c s (.move t m)) = [] ∨
      q.enqueuePos = s.queue.enqueuePos + 1 ∧ pushClaims (trace c s (.move t m)) = [s.queue.enqueuePos] := by
  generalize hpc : s.pc t = g at ha
  cases ha with
  | claim he =>
    subst he
    rw [trace_claim hpc rfl]
    exact .inr ⟨rfl, rfl⟩
  | claimPop he => rw [trace_claimPop hpc he]; exact .inl ⟨rfl, rfl⟩
  | lost hl => rw [trace_lost hpc hl]; exact .inl ⟨rfl, rfl⟩
  | lostPop hl => rw [trace_lostPop hpc hl]; exact .inl ⟨rfl, rfl⟩
  | _ => exact .inl ⟨rfl, by simp [trace, hpc, pushClaims, TicketEvent.pushClaim]⟩

theorem Acts_popClaims (ha : s.queue.Acts backoff c m (s.pc t) q f) :
    q.dequeuePos = s.queue.dequeuePos ∧ popClaims (trace c s (.move t m)) = [] ∨
      q.dequeuePos = s.queue.dequeuePos + 1 ∧ popClaims (trace c s (.move t m)) = [s.queue.dequeuePos] := by
  generalize hpc : s.pc t = g at ha
  cases ha with
  | claim he => rw [trace_claim hpc he]; exact .inl ⟨rfl, rfl⟩
  | claimPop he =>
    subst he
    rw [trace_claimPop hpc rfl]
    exact .inr ⟨rfl, rfl⟩
  | lost hl => rw [trace_lost hpc hl]; exact .inl ⟨rfl, rfl⟩
  | lostPop hl => rw [trace_lostPop hpc hl]; exact .inl ⟨rfl, rfl⟩
  | _ => exact .inl ⟨rfl, by simp [trace, hpc, popClaims, TicketEvent.popClaim]⟩

structure Numbered (c : Nat) (s : State Tid Nat T) (log : List (TicketEvent Tid Nat T)) : Prop where
  inv : Inv c s
  pushes : pushClaims log = List.range s.queue.enqueuePos
  pops : popClaims log = List.range s.queue.dequeuePos

omit [Elem T] in
theorem Numbered.start : Numbered c (⟨AtomicQueue.new Nat T, fun _ => .idle⟩ : State Tid Nat T) [] := ⟨Inv.start, rfl, rfl⟩

theorem Numbered.step [DecidableEq Tid] {throwing : Bool} {a : Label Tid T} (hc : 2 ≤ c) (h : Numbered c s log)
    (hs : Atomic.step backoff c throwing s a = some s') : Numbered c s' (log ++ trace c s a) := by
  have hI := h.inv.step hc hs
  cases step_spec hs with
  | @call t op _ =>
    rw [show trace c s (.call t op) = [] from rfl, List.append_nil]
    exact ⟨hI, h.pushes, h.pops⟩
  | @ret t _ _ _ =>
    rw [show trace c s (.ret t) = [] from rfl, List.append_nil]
    exact ⟨hI, h.pushes, h.pops⟩
  | move _ ha =>
    refine ⟨hI, ?_, ?_⟩
    · rw [pushClaims_append, h.pushes]
      rcases Acts_pushClaims ha with ⟨he, hl⟩ | ⟨he, hl⟩ <;> rw [he, hl]
      · exact List.append_nil _
      · exact List.range_succ.symm
    · rw [popClaims_append, h.pops]
      rcases Acts_popClaims ha with ⟨he, hl⟩ | ⟨he, hl⟩ <;> rw [he, hl]
      · exact List.append_nil _
      · exact List.range_succ.symm

theorem counters_step [DecidableEq Tid] {throwing : Bool} {a : Label Tid T} (h : Atomic.step backoff c throwing s a = some s') :
    s.queue.enqueuePos ≤ s'.queue.enqueuePos ∧ s.queue.dequeuePos ≤ s'.queue.dequeuePos := by
  cases step_spec h with
  | call _ => exact ⟨Nat.le_refl _, Nat.le_refl _⟩
  | ret _ => exact ⟨Nat.le_refl _, Nat.le_refl _⟩
  | @move t m q f _ ha =>
    constructor
    · show s.queue.enqueuePos ≤ q.enqueuePos
      rcases Acts_pushClaims ha with ⟨he, -⟩ | ⟨he, -⟩ <;> omega
    · show s.queue.dequeuePos ≤ q.dequeuePos
      rcases Acts_popClaims ha with ⟨hd, -⟩ | ⟨hd, -⟩ <;> omega

theorem counters_exec [DecidableEq Tid] {throwing : Bool} {as : List (Label Tid T)}
    {y y' : State Tid Nat T × List (TicketEvent Tid Nat T)}
    (h : ((machine Tid Nat T backoff c throwing).logged (trace c)).execFrom y as = some y') :
    y.1.queue.enqueuePos ≤ y'.1.queue.enqueuePos ∧ y.1.queue.dequeuePos ≤ y'.1.queue.dequeuePos := by
  refine Machine.execFrom_invariant (I := fun u => y.1.queue.enqueuePos ≤ u.1.queue.enqueuePos ∧
    y.1.queue.dequeuePos ≤ u.1.queue.dequeuePos) (fun u a u' hI hs => ?_) ⟨Nat.le_refl _, Nat.le_refl _⟩ h
  obtain ⟨h1, h2⟩ := counters_step (Machine.logged_step.mp hs).1
  exact ⟨Nat.le_trans hI.1 h1, Nat.le_trans hI.2 h2⟩

def Since (e d : Nat) : Frame Nat T → Prop
  | .loadSequence _ pos _ | .claim _ pos _ => e ≤ pos
  | .loadSequencePop pos _ | .claimPop pos _ => d ≤ pos
  | _ => True

omit [Elem T] in
theorem since_enter (e d : Nat) (op : AtomicOp T) : Since e d (AtomicQueue.enter op) := by
  cases op <;> trivial

omit [Elem T] in
theorem near_iff {w : Nat} : Near w c q f ↔ Since (q.enqueuePos + c - 2 ^ (w - 1)) (q.dequeuePos + c - 2 ^ (w - 1)) f := by
  cases f <;> simp only [Near, Since] <;> omega

theorem Since.act {e d : Nat} {g : Frame Nat T} {q' : NatQueue T} (h : Since e d g) (he : e ≤ q.enqueuePos)
    (hd : d ≤ q.dequeuePos) (ha : q.Acts backoff c m g q' f) : Since e d f := by
  cases ha with
  | loadEnqueue | lost => exact he
  | loadDequeue | lostPop => exact hd
  | ready | readyPop => exact h
  | _ => trivial

omit [Elem T] in
theorem Since.near {w e d : Nat} (h : Since e d f) (he : q.enqueuePos + c ≤ e + 2 ^ (w - 1))
    (hd : q.dequeuePos + c ≤ d + 2 ^ (w - 1)) : Near w c q f := by
  cases f with
  | loadSequence | claim | loadSequencePop | claimPop =>
    simp only [Since, Near] at h ⊢
    omega
  | _ => trivial

end

/-! ## Calls that are not overtaken -/

section
variable {Tid T σ : Type}

structure Call {M : Machine σ (Label Tid T)} {n : Nat} (r : Run M n) (t : Tid) (op : AtomicOp T) (a b : Nat) : Prop where
  lt : a < b
  le : b ≤ n
  lab : r.lab a = .call t op
  stays : ∀ j, j < b → a < j → r.lab j ≠ .ret t

theorem Call.succ {M : Machine σ (Label Tid T)} {n : Nat} {r : Run M n} {t : Tid} {op : AtomicOp T} {a b : Nat}
    (h : Call r t op a b) (hb : b < n) (hr : r.lab b ≠ .ret t) : Call r t op a (b + 1) := by
  refine ⟨Nat.lt_succ_of_lt h.lt, hb, h.lab, fun j hj haj => ?_⟩
  rcases Nat.lt_or_eq_of_le (Nat.le_of_lt_succ hj) with hlt | rfl
  · exact h.stays j hlt haj
  · exact hr

variable {w n : Nat} {M : Machine (State Tid (BitVec w) T × List (TicketEvent Tid (BitVec w) T)) (Label Tid T)}

/-- No call is overtaken by half of the counters' range of tickets, less a capacity. -/
def KeepsUp (c : Nat) (r : Run M n) : Prop :=
  ∀ t op a b, Call r t op a b →
    (pushClaims (r.st b).2).length + c < (pushClaims (r.st a).2).length + 2 ^ (w - 1) ∧
      (popClaims (r.st b).2).length + c < (popClaims (r.st a).2).length + 2 ^ (w - 1)

theorem KeepsUp.of_le {c k : Nat} {r : Run M n}
    (h : ∀ i, i ≤ n → (pushClaims (r.st i).2).length ≤ k ∧ (popClaims (r.st i).2).length ≤ k) (hk : k + c < 2 ^ (w - 1)) :
    KeepsUp c r := by
  intro t op a b hcall
  have := h b hcall.le
  omega

end

section
variable {Tid T : Type} [Elem T] {w c : Nat} {y : State Tid Nat T × List (TicketEvent Tid Nat T)}

omit [Elem T] in
theorem Numbered.claims (h : Numbered c y.1 y.2) : (pushClaims (words w y).2).length = y.1.queue.enqueuePos ∧
    (popClaims (words w y).2).length = y.1.queue.dequeuePos := by
  rw [words, pushClaims_map, popClaims_map, List.length_map, List.length_map, h.pushes, h.pops, List.length_range,
    List.length_range]
  exact ⟨rfl, rfl⟩

variable [DecidableEq Tid] {backoff : Nat → Nat} {throwing : Bool} {n : Nat}
  (r : Run ((machine Tid (BitVec w) T backoff c throwing).logged (trace c)) n)

/-- What a run over words has come to at `i`: the claims are counted, and the
position of a thread dates from the call it is in. -/
structure Reads (i : Nat) (y : State Tid Nat T × List (TicketEvent Tid Nat T)) : Prop where
  numbered : Numbered c y.1 y.2
  calls : ∀ t, y.1.pc t = .idle ∨ ∃ op a, Call r t op a i ∧
    Since (pushClaims (r.st a).2).length (popClaims (r.st a).2).length (y.1.pc t)

variable {r} {i : Nat}

theorem Reads.near (h : Reads r i y) (hk : KeepsUp c r) (hy : r.st i = words w y) (t : Tid) {q : NatQueue T}
    (he : q.enqueuePos ≤ y.1.queue.enqueuePos + 1) (hd : q.dequeuePos ≤ y.1.queue.dequeuePos + 1) :
    Near w c q (y.1.pc t) := by
  obtain ⟨h1, h2⟩ := h.numbered.claims (w := w)
  rcases h.calls t with hidle | ⟨op, a, hcall, hsince⟩
  · rw [hidle]
    trivial
  · obtain ⟨g1, g2⟩ := hk t op a i hcall
    rw [hy, h1] at g1
    rw [hy, h2] at g2
    exact hsince.near (by omega) (by omega)

theorem Reads.step (hc : 2 ≤ c) (hpow : ∃ j, j < w ∧ c = 2 ^ j) (hk : KeepsUp c r) (hi : i < n) (h : Reads r i y)
    (hy : r.st i = words w y) : ∃ y', ((machine Tid Nat T backoff c throwing).logged (trace c)).step y (r.lab i) = some y' ∧
      r.st (i + 1) = words w y' ∧ Reads r (i + 1) y' := by
  have hnear : ∀ t, Near w c y.1.queue (y.1.pc t) := fun t => h.near hk hy t (Nat.le_succ _) (Nat.le_succ _)
  have hs := r.step i hi
  rw [hy, logged_word h.numbered.inv ⟨h.numbered.inv.lap, hpow⟩ hnear] at hs
  obtain ⟨y', hy', hx⟩ := Option.map_eq_some_iff.mp hs
  obtain ⟨h1, h2⟩ := Machine.logged_step.mp hy'
  refine ⟨y', hy', hx.symm, h2 ▸ h.numbered.step hc h1, ?_⟩
  -- a thread that does not return stays in its call
  have stays : ∀ u op a, Call r u op a i → r.lab i ≠ .ret u → Call r u op a (i + 1) := fun _ _ _ hcall hr => hcall.succ hi hr
  have claimed : ∀ u op a, Call r u op a i → (pushClaims (r.st a).2).length ≤ y.1.queue.enqueuePos ∧
      (popClaims (r.st a).2).length ≤ y.1.queue.dequeuePos := by
    intro u op a hcall
    obtain ⟨g1, g2⟩ := h.numbered.claims (w := w)
    have hpre := (r.log_prefix (Nat.le_of_lt hcall.lt) (Nat.le_of_lt hi)).sublist
    rw [← g1, ← g2, ← hy]
    exact ⟨(hpre.filterMap _).length_le, (hpre.filterMap _).length_le⟩
  have h1 : Atomic.step backoff c throwing y.1 (r.lab i) = some y'.1 := h1
  generalize hlab : r.lab i = l at h1 stays
  generalize y'.1 = s' at h1
  intro u
  cases step_spec h1 with
  | @call t op _ =>
    by_cases hu : u = t
    · subst hu
      refine .inr ⟨op, i, ⟨Nat.lt_succ_self i, hi, hlab, fun j hj hij => by omega⟩, ?_⟩
      simp only [Function.update_self]
      exact since_enter _ _ op
    · simp only [Function.update_of_ne hu]
      refine (h.calls u).imp_right ?_
      rintro ⟨op', a, hcall, hsince⟩
      exact ⟨op', a, stays u op' a hcall (by simp), hsince⟩
  | @move t m q f _ ha =>
    by_cases hu : u = t
    · subst hu
      simp only [Function.update_self]
      rcases h.calls u with hidle | ⟨op, a, hcall, hsince⟩
      · rw [hidle] at ha
        cases ha
      · obtain ⟨g1, g2⟩ := claimed u op a hcall
        exact .inr ⟨op, a, stays u op a hcall (by simp), hsince.act g1 g2 ha⟩
    · simp only [Function.update_of_ne hu]
      refine (h.calls u).imp_right ?_
      rintro ⟨op', a, hcall, hsince⟩
      exact ⟨op', a, stays u op' a hcall (by simp), hsince⟩
  | @ret t _ _ _ =>
    by_cases hu : u = t
    · subst hu
      exact .inl (Function.update_self ..)
    · simp only [Function.update_of_ne hu]
      refine (h.calls u).imp_right ?_
      rintro ⟨op', a, hcall, hsince⟩
      exact ⟨op', a, stays u op' a hcall (by simp [Ne.symm hu]), hsince⟩

variable (r) in
/-- **The counters can be read as naturals** in a run of any length whose calls keep up. -/
theorem run_reads (hc : 2 ≤ c) (hpow : ∃ j, j < w ∧ c = 2 ^ j) (hk : KeepsUp c r) :
    ∃ r' : Run ((machine Tid Nat T backoff c throwing).logged (trace c)) n, r'.lab = r.lab ∧
      ∀ i, i ≤ n → r.st i = words w (r'.st i) ∧ Reads r i (r'.st i) :=
  r.lift (Reads r) rfl ⟨.start, fun _ => .inl rfl⟩ fun _ _ hi h hy => h.step hc hpow hk hi hy

variable (backoff) in
theorem words_exec {y' : State Tid Nat T × List (TicketEvent Tid Nat T)} {as : List (Label Tid T)} {e d : Nat} (hc : 2 ≤ c)
    (hpow : ∃ j, j < w ∧ c = 2 ^ j) (hI : Inv c y.1) (hs : ∀ t, Since e d (y.1.pc t))
    (he : e ≤ y.1.queue.enqueuePos) (hd : d ≤ y.1.queue.dequeuePos) (he' : y'.1.queue.enqueuePos + c ≤ e + 2 ^ (w - 1))
    (hd' : y'.1.queue.dequeuePos + c ≤ d + 2 ^ (w - 1))
    (h : ((machine Tid Nat T backoff c throwing).logged (trace c)).execFrom y as = some y') :
    ((machine Tid (BitVec w) T backoff c throwing).logged (trace c)).execFrom (words w y) as = some (words w y') := by
  induction as generalizing y with
  | nil => cases h; rfl
  | cons a as ih =>
    obtain ⟨u, hu, hr⟩ := Machine.execFrom_cons_some h
    have h1 : Atomic.step backoff c throwing y.1 a = some u.1 := (Machine.logged_step.mp hu).1
    have hmono := counters_exec hr
    obtain ⟨g1, g2⟩ := counters_step h1
    have hnear : ∀ t, Near w c y.1.queue (y.1.pc t) := fun t => (hs t).near (by omega) (by omega)
    have hstep : ((machine Tid (BitVec w) T backoff c throwing).logged (trace c)).step (words w y) a = some (words w u) := by
      rw [logged_word hI ⟨hI.lap, hpow⟩ hnear, hu]
      rfl
    rw [Machine.execFrom_cons hstep]
    refine ih (hI.step hc h1) (fun t => ?_) (by omega) (by omega) hr
    rcases (step_spec h1).frame t with hf | ⟨op, hf⟩ | hf | ⟨m, -, hf⟩
    · rw [hf]; exact hs t
    · rw [hf]; exact since_enter e d op
    · rw [hf]; trivial
    · exact (hs t).act he hd hf

end

end Atomic

end Yutil
