import Yutil.AtomicLifetimes
import Yutil.QueueOrder

/-!
# The histories of the atomic queues

A push takes effect when its compare-exchange gives it a ticket, a pop when it
takes that ticket over. Up to calls that fail, whose answers are not always
truthful, and pushes that saw the queue open, which `close()` does not stop, the
atomic queues are linearizable to a FIFO of `capacity` places.
-/

namespace Yutil

open Interleave

/-- The calls of an atomic queue, one after the other. A push may be refused and a pop may miss at any time. -/
inductive Fifo.Offers [Elem T] (capacity : Nat) : Fifo T → AtomicOp T → Reply T → Fifo T → Prop
  | pushed {xs : List T} {c : Bool} {arg : T} : xs.length < capacity →
      Offers capacity ⟨xs, c⟩ (.emplace arg) (.pushed true (Elem.moved arg)) ⟨xs ++ [arg], c⟩
  | refused {f : Fifo T} {arg : T} : Offers capacity f (.emplace arg) (.pushed false arg) f
  | popped {xs : List T} {c : Bool} {v : T} : Offers capacity ⟨v :: xs, c⟩ .tryPop (.popped (some v)) ⟨xs, c⟩
  | missed {f : Fifo T} : Offers capacity f .tryPop (.popped none) f
  | close {xs : List T} {c : Bool} : Offers capacity ⟨xs, c⟩ .close (.closed (!c)) ⟨xs, true⟩
  | isClosed {f : Fifo T} : Offers capacity f .isClosed (.isClosed f.closed) f

def AtomicOp.arg {T : Type} : AtomicOp T → Option T
  | .emplace arg => some arg
  | _ => none

def Reply.accepted {T : Type} : Reply T → Bool
  | .pushed ok _ => ok
  | _ => false

def Reply.out {T : Type} : Reply T → Option T
  | .popped out => out
  | _ => none

theorem offers_queue {T : Type} [Elem T] (capacity : Nat) :
    IsQueue (Fifo.Offers (T := T) capacity) Fifo.items AtomicOp.arg Reply.accepted Reply.out where
  moves := by
    intro f op r g h
    cases h with
    | popped => exact List.append_nil _
    | refused | missed | close | isClosed => exact List.append_nil _
    | pushed _ => rfl

namespace Atomic

section
variable {Tid N T : Type} [DecidableEq N] [Counter N] [Elem T]

def effect (capacity : Nat) (q : AtomicQueue N T) : Frame N T → Option (AtomicOp T × Reply T)
  | .checkClosed arg => if q.closed then some (.emplace arg, .pushed false arg) else none
  | .loadSequence arg pos _ =>
    if Counter.dif (q.cell capacity pos).sequence pos < 0 then some (.emplace arg, .pushed false arg) else none
  | .claim arg pos _ => if q.enqueuePos = pos then some (.emplace arg, .pushed true (Elem.moved arg)) else none
  | .loadSequencePop pos _ =>
    if Counter.dif (q.cell capacity pos).sequence (Counter.plus pos 1) < 0 then some (.tryPop, .popped none) else none
  | .claimPop pos _ =>
    if q.dequeuePos = pos then some (.tryPop, .popped (some ((q.cell capacity pos).storage.getD default))) else none
  | .exchangeClosed => some (.close, .closed (!q.closed))
  | .loadClosed => some (.isClosed, .isClosed q.closed)
  | _ => none

def moments (capacity : Nat) (s : State Tid N T) : Label Tid T → List (Tid × Moment (AtomicOp T) (AtomicOp T × Reply T) (Reply T))
  | .call t op => [(t, .call op)]
  | .move t .go => ((effect capacity s.queue (s.pc t)).map fun e => (t, .effect e)).toList
  | .move _ _ => []
  | .ret t =>
    match s.pc t with
    | .done _ r => [(t, .reply r)]
    | _ => []

def stage (capacity : Nat) (q : AtomicQueue N T) : Frame N T → Stage (AtomicOp T) (Reply T)
  | .idle => .idle
  | .checkClosed arg | .loadEnqueue arg _ | .loadSequence arg _ _ | .claim arg _ _ => .called (.emplace arg)
  | .construct arg _ => .owed (.pushed true (Elem.moved arg))
  | .publish arg _ => .owed (.pushed true arg)
  | .loadDequeue _ | .loadSequencePop _ _ | .claimPop _ _ => .called .tryPop
  | .moveOut pos => .owed (.popped (some ((q.cell capacity pos).storage.getD default)))
  | .destroy _ out | .release _ out => .owed (.popped (some out))
  | .exchangeClosed => .called .close
  | .loadClosed => .called .isClosed
  | .done _ r => .owed r

/-! ## The moving thread -/

variable {backoff : Nat → Nat} {c : Nat} {q q' : AtomicQueue N T} {f f' : Frame N T}

/-- The step of a thread is its effect or none. -/
theorem stage_acts {m : Move} (hm : m ≠ .throws) (ha : q.Acts backoff c m f q' f') :
    Advances Itself (stage c q f) (((if m = .go then effect c q f else none).map Moment.effect).toList) (stage c q' f') := by
  cases ha with
  | refused hc =>
    simp only [if_pos, effect, hc]
    exact .effect rfl .nil
  | admitted hc =>
    simp only [if_pos, effect, hc]
    exact .nil
  | ready hd =>
    simp only [if_pos, effect, hd, Int.lt_irrefl, if_false]
    exact .nil
  | full hd =>
    simp only [if_pos, effect, if_pos hd]
    exact .effect rfl .nil
  | passed hd =>
    simp only [if_pos, effect, if_neg (Int.not_lt.mpr (Int.le_of_lt hd))]
    exact .nil
  | claim he =>
    simp only [if_pos, effect, if_pos he]
    exact .effect rfl .nil
  | lost hl =>
    rcases hl with ⟨rfl, hne⟩ | rfl
    · simp only [if_pos, effect, if_neg hne]
      exact .nil
    · exact .nil
  | readyPop hd =>
    simp only [if_pos, effect, hd, Int.lt_irrefl, if_false]
    exact .nil
  | empty hd =>
    simp only [if_pos, effect, if_pos hd]
    exact .effect rfl .nil
  | passedPop hd =>
    simp only [if_pos, effect, if_neg (Int.not_lt.mpr (Int.le_of_lt hd))]
    exact .nil
  | claimPop he =>
    simp only [if_pos, effect, if_pos he]
    exact .effect rfl .nil
  | lostPop hl =>
    rcases hl with ⟨rfl, hne⟩ | rfl
    · simp only [if_pos, effect, if_neg hne]
      exact .nil
    · exact .nil
  | moveOut hv =>
    subst hv
    exact .nil
  | exchangeClosed => exact .effect rfl .nil
  | loadClosed => exact .effect rfl .nil
  | constructThrows | moveOutThrows => exact absurd rfl hm
  | _ => exact .nil

omit [DecidableEq N] in
/-- Only the cell whose ticket the thread holds changes its object. -/
theorem storage_acts {m : Move} (ha : q.Acts backoff c m f q' f') {i : Nat} (hi : ∀ k, holding f = some k → i ≠ Counter.slot c k) :
    storage q' i = storage q i := by
  cases ha with
  | construct | moveOut | destroy =>
    rw [storage_place]
    exact Function.update_of_ne (hi _ rfl) ..
  | publish | release => rw [storage_store]
  | _ => rfl

end

/-! ## The values of the tickets -/

section
variable {Tid T : Type} [DecidableEq Tid] {c : Nat} {s : State Tid Nat T} {vals : List T}

/-- The values of the claimed tickets, in order. -/
structure Lined (c : Nat) (s : State Tid Nat T) (vals : List T) : Prop where
  length : vals.length = s.queue.enqueuePos
  arguments : ∀ u arg k, s.pc u = .construct arg k → vals[k]? = some arg
  items : ∀ k v, s.queue.dequeuePos ≤ k → k < s.queue.enqueuePos → storage s.queue (k % c) = some v → vals[k]? = some v

def line (s : State Tid Nat T) (vals : List T) : Fifo T := ⟨vals.drop s.queue.dequeuePos, s.queue.closed⟩

theorem Lined.keep (h : Lined c s vals) {q' : NatQueue T} {t : Tid} {f : Frame Nat T} (he : q'.enqueuePos = s.queue.enqueuePos)
    (hd : s.queue.dequeuePos ≤ q'.dequeuePos) (hf : ∀ arg k, f ≠ .construct arg k)
    (hitems : ∀ k v, q'.dequeuePos ≤ k → k < s.queue.enqueuePos → storage q' (k % c) = some v →
      storage s.queue (k % c) = some v ∨ vals[k]? = some v) : Lined c ⟨q', Function.update s.pc t f⟩ vals := by
  refine ⟨h.length.trans he.symm, fun u arg k hpc => ?_, fun k v h1 h2 hv => ?_⟩
  · by_cases hu : u = t
    · subst hu
      simp only [Function.update_self] at hpc
      exact absurd hpc (hf arg k)
    · simp only [Function.update_of_ne hu] at hpc
      exact h.arguments u arg k hpc
  · have h2 : k < s.queue.enqueuePos := Nat.lt_of_lt_of_eq h2 he
    rcases hitems k v h1 h2 hv with hv | hv
    · exact h.items k v (Nat.le_trans hd h1) h2 hv
    · exact hv

/-- A claim adds the argument of the push, whose cell is empty. -/
theorem Lined.claim (h : Lined c s vals) (hempty : (s.queue.cell c s.queue.enqueuePos).storage = none) (t : Tid) (arg : T) :
    Lined c ⟨{ s.queue with enqueuePos := s.queue.enqueuePos + 1 },
      Function.update s.pc t (.construct arg s.queue.enqueuePos)⟩ (vals ++ [arg]) := by
  have hlen := h.length
  refine ⟨?_, fun u arg' k hk => ?_, fun k v h1 h2 hv => ?_⟩
  · rw [List.length_append, hlen]
    rfl
  · by_cases hu : u = t
    · subst hu
      simp only [Function.update_self] at hk
      cases hk
      rw [List.getElem?_append_right (Nat.le_of_eq hlen), hlen, Nat.sub_self]
      rfl
    · simp only [Function.update_of_ne hu] at hk
      have hbefore := h.arguments u arg' k hk
      rwa [List.getElem?_append_left (List.getElem?_eq_some_iff.mp hbefore).1]
  · by_cases hk : k = s.queue.enqueuePos
    · subst hk
      have hv : (s.queue.cell c s.queue.enqueuePos).storage = some v := hv
      rw [hempty] at hv
      cases hv
    · have h2 : k < s.queue.enqueuePos := Nat.lt_of_le_of_ne (Nat.le_of_lt_succ h2) hk
      rw [List.getElem?_append_left (by omega)]
      exact h.items k v h1 h2 hv

/-- The item that is built is the argument of its ticket. -/
theorem Lined.construct (h : Lined c s vals) (hb : s.queue.enqueuePos ≤ s.queue.dequeuePos + c) {t : Tid} {arg x : T} {pos : Nat}
    (hpc : s.pc t = .construct arg pos) (h1 : s.queue.dequeuePos ≤ pos) (h2 : pos < s.queue.enqueuePos) :
    Lined c ⟨s.queue.place c pos (some arg), Function.update s.pc t (.publish x pos)⟩ vals := by
  refine h.keep rfl (Nat.le_refl _) (by simp) fun k v hk1 hk2 hv => ?_
  have hk1 : s.queue.dequeuePos ≤ k := hk1
  rw [storage_place] at hv
  by_cases hk : k % c = pos % c
  · obtain rfl := Counter.window_inj hk1 (by omega) h1 (by omega) hk
    have hv : Function.update (storage s.queue) (k % c) (some arg) (k % c) = some v := hv
    rw [Function.update_self] at hv
    cases hv
    exact .inr (h.arguments t arg k hpc)
  · have hv : Function.update (storage s.queue) (pos % c) (some arg) (k % c) = some v := hv
    rw [Function.update_of_ne hk] at hv
    exact .inl hv

/-- The cell of a ticket that a pop has taken over is none of the items'. -/
theorem Lined.passed (h : Lined c s vals) {t : Tid} {f : Frame Nat T} {pos : Nat} (x : Option T) (h1 : pos < s.queue.dequeuePos)
    (h2 : s.queue.enqueuePos ≤ pos + c) (hf : ∀ arg k, f ≠ .construct arg k) :
    Lined c ⟨s.queue.place c pos x, Function.update s.pc t f⟩ vals := by
  refine h.keep rfl (Nat.le_refl _) hf fun k v hk1 hk2 hv => ?_
  have hk1 : s.queue.dequeuePos ≤ k := hk1
  have hne : k % c ≠ Counter.slot c pos := by
    intro hk
    have := Counter.window_inj (d := pos) (by omega) (by omega) (Nat.le_refl _) (by omega) hk
    omega
  rw [storage_place, Function.update_of_ne hne] at hv
  exact .inl hv

variable [Elem T] {backoff : Nat → Nat} {s' : State Tid Nat T} {a : Label Tid T}

theorem Lined.step (hc : 2 ≤ c) (h : Lined c s vals) (hI : Inv c s) (hs : Atomic.step backoff c false s a = some s') :
    ∃ vals', Lined c s' vals' ∧ Serial (Fifo.Offers c) (line s vals) (effects (moments c s a)) (line s' vals') := by
  -- a step that leaves the values alone
  have quiet : ∀ {t : Tid} {f : Frame Nat T}, (∀ arg k, f ≠ .construct arg k) →
      Serial (Fifo.Offers c) (line s vals) (effects (moments c s a)) (line s vals) →
      ∃ vals', Lined c ⟨s.queue, Function.update s.pc t f⟩ vals' ∧
        Serial (Fifo.Offers c) (line s vals) (effects (moments c s a)) (line ⟨s.queue, Function.update s.pc t f⟩ vals') :=
    fun hf hserial => ⟨vals, h.keep rfl (Nat.le_refl _) hf fun _ _ _ _ hv => .inl hv, hserial⟩
  cases step_spec hs with
  | @call t op hidle => exact quiet (by cases op <;> simp [AtomicQueue.enter]) .nil
  | @ret t k r hpc =>
    have hm : moments c s (.ret t) = [(t, .reply r)] := by simp only [moments, hpc]
    rw [hm] at quiet ⊢
    exact quiet (by simp) .nil
  | @move t m q f hm ha =>
    have one : ∀ {e : AtomicOp T × Reply T}, effect c s.queue (s.pc t) = some e →
        effects (moments c s (.move t .go)) = [(t, e)] := by
      intro e he
      simp only [moments, he]
      rfl
    have silent : effect c s.queue (s.pc t) = none → effects (moments c s (.move t .go)) = [] := by
      intro he
      simp only [moments, he]
      rfl
    have hle := hI.lap.le
    have hframe := hI.frames t
    generalize hpc : s.pc t = g at ha hframe one silent
    cases ha with
    | @refused arg hcl =>
      have he := one (e := (.emplace arg, .pushed false arg)) (by simp only [effect, hcl, if_true])
      rw [he] at quiet ⊢
      exact quiet (by simp) (.cons .refused .nil)
    | @full arg _ _ hd =>
      have he := one (e := (.emplace arg, .pushed false arg)) (by simp only [effect, if_pos hd])
      rw [he] at quiet ⊢
      exact quiet (by simp) (.cons .refused .nil)
    | empty hd =>
      have he := one (e := (.tryPop, .popped none)) (by simp only [effect, if_pos hd])
      rw [he] at quiet ⊢
      exact quiet (by simp) (.cons .missed .nil)
    | loadClosed =>
      have he := one rfl
      rw [he] at quiet ⊢
      exact quiet (by simp) (.cons .isClosed .nil)
    | admitted hcl =>
      have he := silent (by simp only [effect, hcl, Bool.false_eq_true, if_false])
      rw [he] at quiet ⊢
      exact quiet (by simp) .nil
    | ready hd | readyPop hd =>
      have he := silent (by simp only [effect, hd, Int.lt_irrefl, if_false])
      rw [he] at quiet ⊢
      exact quiet (by simp) .nil
    | passed hd | passedPop hd =>
      have he := silent (by simp only [effect, if_neg (Int.not_lt.mpr (Int.le_of_lt hd))])
      rw [he] at quiet ⊢
      exact quiet (by simp) .nil
    | lost hl | lostPop hl =>
      rcases hl with ⟨rfl, hne⟩ | rfl
      · have he := silent (by simp only [effect, if_neg hne])
        rw [he] at quiet ⊢
        exact quiet (by simp) .nil
      · exact quiet (by simp) .nil
    | loadEnqueue | loadDequeue => exact quiet (by simp) (by rw [silent rfl]; exact .nil)
    | constructThrows | moveOutThrows => cases hm rfl
    | @claim arg pos spins he =>
      subst he
      obtain ⟨hroom, hempty⟩ := hI.lap.room hc (by
        rcases hframe with hlt | ⟨-, hs⟩
        · exact absurd hlt (Nat.lt_irrefl _)
        · exact hs)
      have hlen := h.length
      rw [one (e := (.emplace arg, .pushed true (Elem.moved arg))) (by simp only [effect, if_true])]
      refine ⟨vals ++ [arg], h.claim hempty t arg, .cons ?_ .nil⟩
      have hitems : (vals ++ [arg]).drop s.queue.dequeuePos = vals.drop s.queue.dequeuePos ++ [arg] :=
        List.drop_append_of_le_length (by omega)
      show Fifo.Offers c ⟨vals.drop s.queue.dequeuePos, s.queue.closed⟩ _ _
        ⟨(vals ++ [arg]).drop s.queue.dequeuePos, s.queue.closed⟩
      rw [hitems]
      refine .pushed ?_
      rw [List.length_drop]
      omega
    | @claimPop pos spins he =>
      subst he
      obtain ⟨hlt, hsome⟩ := hI.lap.item hc (by
        rcases hframe with hlt | ⟨-, hs⟩
        · exact absurd hlt (Nat.lt_irrefl _)
        · exact hs)
      obtain ⟨v, hv⟩ := Option.isSome_iff_exists.mp hsome
      have hitem := h.items s.queue.dequeuePos v (Nat.le_refl _) hlt hv
      rw [one (e := (.tryPop, .popped (some v))) (by simp only [effect, if_true, hv, Option.getD_some])]
      refine ⟨vals, h.keep rfl (Nat.le_succ _) (by simp) fun _ _ _ _ hv => .inl hv, .cons ?_ .nil⟩
      obtain ⟨hk, hget⟩ := List.getElem?_eq_some_iff.mp hitem
      rw [line, line, List.drop_eq_getElem_cons hk, hget]
      exact .popped
    | @construct arg pos =>
      rw [silent rfl]
      exact ⟨vals, h.construct hI.lap.bound hpc hframe.1 hframe.2.1, .nil⟩
    | publish =>
      rw [silent rfl]
      refine ⟨vals, h.keep rfl (Nat.le_refl _) (by simp) fun k v _ _ hv => .inl ?_, .nil⟩
      rwa [storage_store] at hv
    | release =>
      rw [silent rfl]
      refine ⟨vals, h.keep rfl (Nat.le_refl _) (by simp) fun k v _ _ hv => .inl ?_, .nil⟩
      rwa [storage_store] at hv
    | moveOut | destroy =>
      rw [silent rfl]
      exact ⟨vals, h.passed _ hframe.1 hframe.2.1 (by simp), .nil⟩
    | exchangeClosed =>
      rw [one rfl]
      refine ⟨vals, h.keep rfl (Nat.le_refl _) (by simp) fun _ _ _ _ hv => .inl hv, .cons .close .nil⟩

/-! ## Runs -/

theorem stage_step (hI : Inv c s) (hs : Atomic.step backoff c false s a = some s') (u : Tid) :
    Advances Itself (stage c s.queue (s.pc u)) (momentsOf u (moments c s a)) (stage c s'.queue (s'.pc u)) := by
  cases step_spec hs with
  | @call t op hidle =>
    by_cases hu : u = t
    · subst hu
      rw [moments, momentsOf_self, hidle]
      simp only [Function.update_self]
      cases op <;> exact .call .nil
    · rw [moments, momentsOf_ne hu]
      simp only [Function.update_of_ne hu]
      exact .nil
  | @ret t k r hpc =>
    have hm : moments c s (.ret t) = [(t, .reply r)] := by simp only [moments, hpc]
    rw [hm]
    by_cases hu : u = t
    · subst hu
      rw [momentsOf_self, hpc]
      simp only [Function.update_self]
      exact .reply .nil
    · rw [momentsOf_ne hu]
      simp only [Function.update_of_ne hu]
      exact .nil
  | @move t m q f hm ha =>
    by_cases hu : u = t
    · subst hu
      have hown : momentsOf u (moments c s (.move u m)) =
          ((if m = .go then effect c s.queue (s.pc u) else none).map Moment.effect).toList := by
        cases m with
        | go =>
          simp only [moments, if_pos]
          cases effect c s.queue (s.pc u) with
          | none => rfl
          | some e => exact momentsOf_self u _
        | _ => rfl
      rw [hown]
      simp only [Function.update_self]
      refine stage_acts (fun hthrows => ?_) ha
      cases hm hthrows
    · have hother : momentsOf u (moments c s (.move t m)) = [] := by
        cases m with
        | go =>
          simp only [moments]
          cases effect c s.queue (s.pc t) with
          | none => rfl
          | some e => exact momentsOf_ne hu _
        | _ => rfl
      rw [hother]
      simp only [Function.update_of_ne hu]
      have hstage : stage c q (s.pc u) = stage c s.queue (s.pc u) := by
        cases hpc : s.pc u with
        | moveOut k =>
          have hheld : holding (s.pc u) = some k := by
            rw [hpc]
            rfl
          have hstorage := storage_acts ha (i := Counter.slot c k) fun j hj hslot =>
            hu (hI.owned.exclusive u t k j hheld hj hslot)
          show Stage.owed (Reply.popped (some ((storage q (Counter.slot c k)).getD default))) = _
          rw [hstorage]
          rfl
        | _ => rfl
      rw [hstage]
      exact .nil

variable (Tid T) in
def natObserved (backoff : Nat → Nat) (c : Nat) :
    Machine ((State Tid Nat T × List (TicketEvent Tid Nat T)) × List (Tid × Moment (AtomicOp T) (AtomicOp T × Reply T) (Reply T)))
      (Label Tid T) :=
  (natMachine Tid T backoff c).logged fun x => moments c x.1

theorem natObserved_linearizable (hc : 2 ≤ c) {y : State Tid Nat T × List (TicketEvent Tid Nat T)}
    {log : List (Tid × Moment (AtomicOp T) (AtomicOp T × Reply T) (Reply T))}
    (hr : (natObserved Tid T backoff c).Reachable (y, log)) : Linearizable (Fifo.Offers c) Fifo.empty (visible log) := by
  have hinv : Inv c y.1 ∧ (∀ t, Advances Itself .idle (momentsOf t log) (stage c y.1.queue (y.1.pc t))) ∧
      ∃ vals, Lined c y.1 vals ∧ Serial (Fifo.Offers c) Fifo.empty (effects log) (line y.1 vals) := by
    refine hr.invariant (I := fun x => Inv c x.1.1 ∧ (∀ t, Advances Itself .idle (momentsOf t x.2) (stage c x.1.1.queue (x.1.1.pc t))) ∧
      ∃ vals, Lined c x.1.1 vals ∧ Serial (Fifo.Offers c) Fifo.empty (effects x.2) (line x.1.1 vals)) ?_ ?_
    · refine ⟨Inv.start, fun t => .nil, [], ⟨rfl, ?_, ?_⟩, .nil⟩
      · intro u arg k hpc
        cases hpc
      · intro k v _ hk _
        exact absurd hk (Nat.not_lt_zero k)
    · intro x a x' _ hx hs
      obtain ⟨hI, hstages, vals, hlined, hserial⟩ := hx
      obtain ⟨h1, hlog⟩ := Machine.logged_step.mp hs
      have hstep : Atomic.step backoff c false x.1.1 a = some x'.1.1 := (Machine.logged_step.mp h1).1
      obtain ⟨vals', hlined', hserial'⟩ := hlined.step hc hI hstep
      rw [hlog]
      refine ⟨hI.step hc hstep, fun t => ?_, vals', hlined', ?_⟩
      · rw [momentsOf_append]
        exact (hstages t).append (stage_step hI hstep t)
      · rw [effects_append]
        exact hserial.append hserial'
  obtain ⟨-, hstages, vals, -, hserial⟩ := hinv
  exact linearizable_of_effects (fun t => ⟨_, hstages t⟩) hserial

/-! ## Counters of a word -/

section
variable {w : Nat}

omit [DecidableEq Tid] in
theorem effect_word (hI : Inv c s) (hq : Sized w c s.queue) (t : Tid) (hn : Near w c s.queue (s.pc t)) :
    effect c (s.queue.map (word w)) ((s.pc t).map (word w)) = effect c s.queue (s.pc t) := by
  have hf := hI.frames t
  cases hp : s.pc t with
  | loadSequence arg pos spins =>
    rw [hp] at hf hn
    simp only [effect, Frame.map, hq.dif hf hn]
  | claim arg pos spins =>
    rw [hp] at hf hn
    have hb : pos ≤ s.queue.enqueuePos := by rcases hf with hf | hf <;> omega
    simp only [effect, Frame.map, hq.enqueuePos_eq hb hn]
  | loadSequencePop pos spins =>
    rw [hp] at hf hn
    simp only [effect, Frame.map, hq.difPop hf hn]
  | claimPop pos spins =>
    rw [hp] at hf hn
    have hb : pos ≤ s.queue.dequeuePos := by rcases hf with hf | hf <;> omega
    simp only [effect, Frame.map, hq.dequeuePos_eq hb hn, hq.cell pos]
    rfl
  | _ => rfl

omit [DecidableEq Tid] in
theorem moments_word (hI : Inv c s) (hq : Fits w c s.queue) (a : Label Tid T) :
    moments c (s.map (word w)) a = moments c s a := by
  cases a with
  | call t op => rfl
  | move t m =>
    cases m with
    | go => exact congrArg (fun e => (Option.map (fun e => (t, Moment.effect e)) e).toList) (effect_word hI hq.toSized t (hq.near _))
    | _ => rfl
  | ret t =>
    have hpc : (s.map (word w)).pc t = (s.pc t).map (word w) := rfl
    simp only [moments, hpc]
    cases s.pc t <;> rfl

end

end

end Atomic

/-! ## The three versions -/

open Atomic

namespace AtomicVersion

variable {Tid T : Type} [DecidableEq Tid] [Elem T] {fuel : Nat} {requested capacity : BitVec 64}

def observed (version : AtomicVersion) (Tid T : Type) [DecidableEq Tid] [Elem T] (capacity : BitVec 64) :
    Machine ((Atomic.State Tid (BitVec 64) T × List (TicketEvent Tid (BitVec 64) T)) ×
      List (Tid × Moment (AtomicOp T) (AtomicOp T × Reply T) (Reply T))) (Atomic.Label Tid T) :=
  (version.recorded Tid T capacity).logged fun x => moments capacity.toNat x.1

variable {version : AtomicVersion} {x : Atomic.State Tid (BitVec 64) T × List (TicketEvent Tid (BitVec 64) T)}
  {log : List (Tid × Moment (AtomicOp T) (AtomicOp T × Reply T) (Reply T))}

theorem observed_reads (hcap : normalizeCapacity fuel requested = some capacity)
    (hr : (version.observed Tid T capacity).Reachable (x, log)) (hlt : (pushClaims x.2).length < 2 ^ 63 - capacity.toNat) :
    ∃ y, (natObserved Tid T version.backoff capacity.toNat).Reachable (y, log) ∧ x = words 64 y := by
  obtain ⟨hc, hpow⟩ := capacity_spec hcap
  generalize hz : (x, log) = z at hr
  induction hr generalizing x log with
  | start =>
    obtain ⟨rfl, rfl⟩ := Prod.ext_iff.mp hz
    refine ⟨_, .start, ?_⟩
    show (version.recorded Tid T capacity).start = _
    rw [recorded_eq]
    rfl
  | @step z z' a hz' hs ih =>
    subst hz
    obtain ⟨h1, hlog⟩ := Machine.logged_step.mp hs
    have htickets := (Machine.logged_step.mp h1).2
    simp only at htickets hlog
    have hle : (pushClaims z.1.2).length ≤ (pushClaims x.2).length := by
      rw [htickets, pushClaims_append, List.length_append]
      exact Nat.le_add_right ..
    obtain ⟨y, hy, he⟩ := ih (Nat.lt_of_le_of_lt hle hlt) rfl
    have hR : Recorded capacity.toNat y.1 y.2 := recorded_reachable hc (Machine.logged_reachable hy)
    have hclaims := words_claims (w := 64) hR
    rw [← he] at hclaims
    have hroom : y.1.queue.enqueuePos + capacity.toNat < 2 ^ (64 - 1) := by omega
    have hstep : (wordMachine Tid T 64 version.backoff capacity.toNat).step (words 64 y) a = some x := by
      rw [← he, ← recorded_eq]
      exact h1
    obtain ⟨y', hy', hx⟩ := words_step hR hpow hroom hstep
    refine ⟨y', .step hy (a := a) (Machine.logged_step.mpr ⟨hy', ?_⟩), hx⟩
    have hmoments : moments capacity.toNat z.1.1 a = moments capacity.toNat y.1 a := by
      rw [he]
      exact moments_word hR.inv (hR.inv.fits hpow hroom) a
    rw [hlog, hmoments]

end AtomicVersion

/-- **The atomic queues are linearizable** to a FIFO of `capacity` places, up to the calls that fail. -/
theorem atomic_linearizable {Tid T : Type} [DecidableEq Tid] [Elem T] {fuel : Nat} {requested capacity : BitVec 64}
    (version : AtomicVersion) (hcap : normalizeCapacity fuel requested = some capacity)
    {x : Atomic.State Tid (BitVec 64) T × List (TicketEvent Tid (BitVec 64) T)}
    {log : List (Tid × Moment (AtomicOp T) (AtomicOp T × Reply T) (Reply T))}
    (hr : (version.observed Tid T capacity).Reachable (x, log)) (hlt : (pushClaims x.2).length < 2 ^ 63 - capacity.toNat) :
    Linearizable (Fifo.Offers capacity.toNat) Fifo.empty (visible log) := by
  obtain ⟨y, hy, -⟩ := AtomicVersion.observed_reads hcap hr hlt
  exact natObserved_linearizable (AtomicVersion.capacity_spec hcap).1 hy

theorem atomic_linearizable_one :
    ∃ x, (AtomicVersion.V3.observed Bool Nat 2#64).exec pushThenPop = some x ∧
      Linearizable (Fifo.Offers (2#64).toNat) Fifo.empty (visible x.2) := by
  have hrun : ((AtomicVersion.V3.observed Bool Nat 2#64).exec pushThenPop).map (fun x => (pushClaims x.1.2).length) = some 1 := by
    decide
  obtain ⟨x, hx, hpush⟩ := Option.map_eq_some_iff.mp hrun
  have hcap : normalizeCapacity 3 2#64 = some 2#64 := by decide
  exact ⟨x, hx, atomic_linearizable .V3 hcap (Machine.exec_reachable _ hx) (by rw [hpush]; decide)⟩

/-- **A consumer takes the items of a producer in the order of its pushes**, from those that were accepted and the one that is
under way, when no element operation throws. -/
theorem atomic_producers_in_order {Tid T : Type} [DecidableEq Tid] [Elem T] {fuel : Nat} {requested capacity : BitVec 64}
    (version : AtomicVersion) (hcap : normalizeCapacity fuel requested = some capacity)
    {x : Atomic.State Tid (BitVec 64) T × List (TicketEvent Tid (BitVec 64) T)}
    {log : List (Tid × Moment (AtomicOp T) (AtomicOp T × Reply T) (Reply T))}
    (hr : (version.observed Tid T capacity).Reachable (x, log)) (hlt : (pushClaims x.2).length < 2 ^ 63 - capacity.toNat)
    (key : T → Tid) (hkey : ∀ t v, (t, .call (.emplace v)) ∈ log → key v = t) (producer consumer : Tid) :
    ((((entriesOf consumer (visible log)).filterMap External.result).filterMap Reply.out).filter (key · = producer)).Sublist
      (handedIn AtomicOp.arg Reply.accepted (entriesOf producer (visible log))) := by
  obtain ⟨y, hy, -⟩ := AtomicVersion.observed_reads hcap hr hlt
  have hl := natObserved_linearizable (AtomicVersion.capacity_spec hcap).1 hy
  refine hl.producers_in_order (offers_queue capacity.toNat) rfl ?_ producer consumer
  intro t op v hcall hv
  cases op with
  | emplace arg =>
    cases hv
    exact hkey t v (mem_visible hcall)
  | _ => cases hv

theorem atomic_producers_in_order_one :
    ∃ x, (AtomicVersion.V3.observed Bool Nat 2#64).exec pushThenPop = some x ∧
      ((((entriesOf false (visible x.2)).filterMap External.result).filterMap Reply.out).filter fun _ => true = true).Sublist
        (handedIn AtomicOp.arg Reply.accepted (entriesOf true (visible x.2))) := by
  have hrun : ((AtomicVersion.V3.observed Bool Nat 2#64).exec pushThenPop).map (fun x => ((pushClaims x.1.2).length,
      x.2.all fun m => ((m.2.external.bind External.op).bind AtomicOp.arg).isNone || m.1)) = some (1, true) := by decide
  obtain ⟨x, hx, hobs⟩ := Option.map_eq_some_iff.mp hrun
  have hpush : (pushClaims x.1.2).length = 1 := congrArg Prod.fst hobs
  have hcap : normalizeCapacity 3 2#64 = some 2#64 := by decide
  refine ⟨x, hx, atomic_producers_in_order .V3 hcap (Machine.exec_reachable _ hx) (by rw [hpush]; decide) (fun _ => true) ?_
    true false⟩
  intro t v hcall
  have hall := List.all_eq_true.mp (congrArg Prod.snd hobs) _ hcall
  exact hall.symm

end Yutil
