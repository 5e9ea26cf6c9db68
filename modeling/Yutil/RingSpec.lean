import Yutil.RingQueues

/-!
# The rings are one bounded FIFO

The three versions answer a call as a bounded FIFO does (`answers`), whatever
their notifications and counters are. A history of completed sections, with
the sleeps of waiting calls in between, is therefore the history of the FIFO,
and the three versions cannot be told apart by their results.
-/

namespace Interleave.Monitor

variable {D Op Cv R : Type}

/-- The sections of any threads in lock order, seen from the data: those that
leave are recorded with their results, those that go to sleep are not. -/
inductive Sections (M : Monitor D Op Cv R) : D → List (Op × R) → D → Prop
  | nil {d : D} : Sections M d [] d
  | sleep {d d₁ d₂ : D} {op : Op} {w : Bool} {v : Cv} {log : List (Op × R)} : M.sect op w d = .sleep d₁ v →
      Sections M d₁ log d₂ → Sections M d log d₂
  | leave {d d₁ d₂ : D} {op : Op} {w : Bool} {held : Option (Notify Cv)} {later : List (Notify Cv)} {r : R}
      {log : List (Op × R)} : M.sect op w d = .leave d₁ held later r → Sections M d₁ log d₂ →
      Sections M d ((op, r) :: log) d₂

theorem Sections.append {M : Monitor D Op Cv R} {d d₁ d₂ : D} {l₁ l₂ : List (Op × R)} (h₁ : Sections M d l₁ d₁)
    (h₂ : Sections M d₁ l₂ d₂) : Sections M d (l₁ ++ l₂) d₂ := by
  induction h₁ with
  | nil => exact h₂
  | sleep hx _ ih => exact .sleep hx (ih h₂)
  | leave hx _ ih => exact .leave hx (ih h₂)

/-- An interleaving of any threads completes such sections. -/
theorem sections_of_reachable {Tid : Type} [DecidableEq Tid] [Fintype Tid] [DecidableEq Cv] {M : Monitor D Op Cv R}
    {calls : Tid → Op → Bool} {x : State Tid D Op Cv R × List (Tid × Op × R)}
    (hx : ((M.machine calls).logged M.completes).Reachable x) : Sections M M.start (x.2.map (·.2)) x.1.data := by
  refine hx.invariant (I := fun x => Sections M M.start (x.2.map (·.2)) x.1.data) .nil ?_
  intro x a x' _ h hstep
  obtain ⟨hs, hl⟩ := Machine.logged_step.mp hstep
  have hs : M.step calls x.1 a = some x'.1 := hs
  rw [hl, List.map_append]
  have keep : M.completes x.1 a = [] → x'.1.data = x.1.data →
      Sections M M.start (x.2.map (·.2) ++ (M.completes x.1 a).map (·.2)) x'.1.data := by
    intro hc hd
    rw [hc, hd, List.map_nil, List.append_nil]
    exact h
  generalize x'.1 = s' at hs keep ⊢
  cases step_spec hs with
  | call _ _ => exact keep rfl rfl
  | @sleep t pick op w d v hready hsect =>
    have hc : M.completes x.1 (.acquire t pick) = [] := by simp [completes, hready, hsect]
    rw [hc, List.map_nil]
    exact h.append (.sleep hsect .nil)
  | @leave t pick op w d held later r pc hready hsect _ =>
    have hc : M.completes x.1 (.acquire t pick) = [(t, op, r)] := by simp [completes, hready, hsect]
    rw [hc]
    exact h.append (.leave hsect .nil)
  | notify _ _ => exact keep rfl rfl
  | spurious _ => exact keep rfl rfl
  | ret _ => exact keep rfl rfl

end Interleave.Monitor

namespace Yutil

open Interleave Monitor

variable {T : Type}

/-! ## The bounded FIFO -/

namespace Fifo

def push (f : Fifo T) : Built T → Fifo T × Res T
  | .value v => (⟨f.items ++ [v], f.closed⟩, .pushed true)
  | .throws _ => (f, .threw)

def pop (f : Fifo T) (assigns : Bool) : Fifo T × Res T :=
  match f.items with
  | [] => (f, .popped none)
  | v :: rest => if assigns then (⟨rest, f.closed⟩, .popped (some v)) else (f, .threw)

def call (capacity : Nat) (f : Fifo T) : RingOp T → Option (Fifo T × Res T)
  | .emplace b =>
    if f.closed then some (f, .pushed false) else if f.items.length < capacity then some (f.push b) else none
  | .tryEmplace b => if f.closed || decide (capacity ≤ f.items.length) then some (f, .pushed false) else some (f.push b)
  | .waitPop assigns => if !f.closed && f.items.isEmpty then none else some (f.pop assigns)
  | .tryPop assigns => some (f.pop assigns)
  | .close => some (⟨f.items, true⟩, .closed)

def calls (capacity : Nat) (f : Fifo T) : List (RingOp T) → Option (Fifo T × List (Res T))
  | [] => some (f, [])
  | op :: ops =>
    (f.call capacity op).bind fun x => (x.1.calls capacity ops).map fun y => (y.1, x.2 :: y.2)

def After (f g : Fifo T) : Event T → Prop
  | .accept v => g = ⟨f.items ++ [v], f.closed⟩
  | .take v => f.items = v :: g.items ∧ g.closed = f.closed
  | .shut => g = ⟨f.items, true⟩
  | _ => g = f

theorem Does.after {room : Nat → Prop} {f g : Fifo T} {e : Event T} (h : f.Does room e g) : f.After g e := by
  cases h with
  | take => exact ⟨rfl, rfl⟩
  | _ => rfl

end Fifo

/-! ## A section answers as the FIFO does -/

variable [Elem T]

def Ring.answer : Exit (Ring T) Cv (Res T) → Option (Fifo T × Res T)
  | .sleep _ _ => none
  | .leave d _ _ x => some (d.abs, x)

section
variable {r : Ring T} {full empty : Cv} {tells : RingOp T → Ring T → Option (Notify Cv) × List (Notify Cv)}

theorem abs_isEmpty (r : Ring T) : r.abs.items.isEmpty = decide (r.size = 0) := by
  rw [Ring.abs, ← Ring.items_length r]
  cases r.items <;> rfl

theorem abs_length (r : Ring T) : r.abs.items.length = r.size := Ring.items_length r

theorem sect_answer {op : RingOp T} {x : Exit (Ring T) Cv (Res T)} (hs : r.Sect full empty tells op x) (hok : r.Ok op x) :
    Ring.answer x = r.abs.call r.capacity op := by
  have hclosed : r.abs.closed = r.closed := rfl
  cases hs with
  | waitFull hc hsz _ => simp [Ring.answer, Fifo.call, hclosed, hc, abs_length, Nat.not_lt.mpr hsz]
  | waitEmpty hc hsz _ => simp [Ring.answer, Fifo.call, hclosed, hc, abs_isEmpty, hsz]
  | @refused _ b d hop _ =>
    have hd : d.abs = r.abs := by
      have := hok.2.1.after
      rwa [show op.event (.pushed false) = .refuse by rcases hop with ⟨rfl, -⟩ | ⟨rfl, -⟩ <;> cases b <;> rfl] at this
    rcases hop with ⟨rfl, hc⟩ | ⟨rfl, hc⟩
    · simp [Ring.answer, Fifo.call, hclosed, hc, hd]
    · have hfull : (r.abs.closed || decide (r.capacity ≤ r.abs.items.length)) = true := by
        rw [abs_length, hclosed]
        rcases hc with hc | hc <;> simp [hc]
      simp [Ring.answer, Fifo.call, hfull, hd]
  | @pushed _ v d hop hc hsz _ _ _ =>
    have hd : d.abs = ⟨r.abs.items ++ [v], r.abs.closed⟩ := by
      have := hok.2.1.after
      rwa [show op.event (.pushed true) = .accept v by rcases hop with rfl | rfl <;> rfl] at this
    rcases hop with rfl | rfl
    · simp [Ring.answer, Fifo.call, Fifo.push, hclosed, hc, abs_length, hsz, hd]
    · simp [Ring.answer, Fifo.call, Fifo.push, hclosed, hc, abs_length, Nat.not_le.mpr hsz, hd]
  | @pushThrew _ l d hop hc hsz _ =>
    have hd : d.abs = r.abs := by
      have := hok.2.1.after
      rwa [show op.event .threw = .fail by rcases hop with rfl | rfl <;> rfl] at this
    rcases hop with rfl | rfl
    · simp [Ring.answer, Fifo.call, Fifo.push, hclosed, hc, abs_length, hsz, hd]
    · simp [Ring.answer, Fifo.call, Fifo.push, hclosed, hc, abs_length, Nat.not_le.mpr hsz, hd]
  | @nothing _ a d hop hz _ =>
    have hempty : r.abs.items = [] := Ring.items_of_size_zero hz
    have hd : d.abs = r.abs := by
      have := hok.2.1.after
      rcases hop with ⟨rfl, -⟩ | rfl <;> exact this
    rcases hop with ⟨rfl, hc⟩ | rfl
    · simp [Ring.answer, Fifo.call, Fifo.pop, hclosed, hc, hempty, hd]
    · simp [Ring.answer, Fifo.call, Fifo.pop, hempty, hd]
  | @popped _ d v hop _ _ _ =>
    obtain ⟨hr, hd⟩ : r.abs.items = v :: d.abs.items ∧ d.abs.closed = r.abs.closed := by
      have := hok.2.1.after
      rwa [show op.event (.popped (some v)) = .take v by rcases hop with rfl | rfl <;> rfl] at this
    have hd : d.abs = ⟨d.abs.items, r.abs.closed⟩ := by rw [← hd]
    rcases hop with rfl | rfl
    · simp [Ring.answer, Fifo.call, Fifo.pop, hr, ← hd]
    · simp [Ring.answer, Fifo.call, Fifo.pop, hr, ← hd]
  | @popThrew _ d hop hz _ =>
    have hd : d.abs = r.abs := by
      have := hok.2.1.after
      rwa [show op.event .threw = .fail by rcases hop with rfl | rfl <;> rfl] at this
    obtain ⟨v, xs, hr⟩ : ∃ v xs, r.abs.items = v :: xs := by
      apply List.exists_cons_of_length_pos
      rw [abs_length]
      exact hz
    rcases hop with rfl | rfl
    · simp [Ring.answer, Fifo.call, Fifo.pop, hr, hd]
    · simp [Ring.answer, Fifo.call, Fifo.pop, hr, hd]
  | @shut d _ _ _ =>
    have hd : d.abs = ⟨r.abs.items, true⟩ := hok.2.1.after
    simp [Ring.answer, Fifo.call, hd]

end

/-! ## The three versions -/

inductive RingVersion
  | V1
  | V2
  | V3

namespace RingVersion

def monitor (T : Type) [Elem T] (version : RingVersion) (capacity : Nat) : Monitor (Ring T) (RingOp T) Cv (Res T) :=
  match version with
  | .V1 => RingMutexMpmcQueueV1.monitor capacity
  | .V2 => RingMutexMpmcQueueV2.monitor capacity
  | .V3 => RingMutexMpmcQueueV3.monitor capacity

variable {version : RingVersion} {requested : Nat} {r r' : Ring T} {log : List (RingOp T × Res T)}

theorem start_eq : (version.monitor T requested).start = Ring.new requested := by
  cases version <;> rfl

theorem sect_ok (version : RingVersion) (requested : Nat) (op : RingOp T) (w : Bool) (h : r.WF) : r.Ok op ((version.monitor T requested).sect op w r) := by
  cases version with
  | V1 => exact RingMutexMpmcQueueV1.sect_ok op w h
  | V2 => exact RingMutexMpmcQueueV2.sect_ok op w h
  | V3 => exact RingMutexMpmcQueueV3.sect_ok op w h

theorem answers (version : RingVersion) (requested : Nat) (op : RingOp T) (w : Bool) (h : r.WF) :
    Ring.answer ((version.monitor T requested).sect op w r) = r.abs.call r.capacity op := by
  have hok := sect_ok version requested op w h
  cases version with
  | V1 => exact sect_answer (RingMutexMpmcQueueV1.sect_spec requested op w r) hok
  | V2 => exact sect_answer (RingMutexMpmcQueueV2.sect_spec requested op w r) hok
  | V3 => exact sect_answer (RingMutexMpmcQueueV3.sect_spec requested op w r) hok

/-- What a completed history does, as calls on the FIFO. -/
theorem sections_calls (hs : Sections (version.monitor T requested) r log r') (h : r.WF) :
    r'.WF ∧ r'.capacity = r.capacity ∧ r.abs.calls r.capacity (log.map (·.1)) = some (r'.abs, log.map (·.2)) := by
  induction hs with
  | nil => exact ⟨h, rfl, rfl⟩
  | @sleep r r₁ r₂ op w v log hx _ ih =>
    have hok := sect_ok version requested op w h
    rw [hx] at hok
    obtain ⟨hwf, habs, hcap⟩ := hok
    rw [← habs, ← hcap]
    exact ih hwf
  | @leave r r₁ r₂ op w held later x log hx _ ih =>
    have hok := sect_ok version requested op w h
    have hanswer := answers version requested op w h
    rw [hx] at hok hanswer
    obtain ⟨hwf, -, hcap⟩ := hok
    obtain ⟨h1, h2, h3⟩ := ih hwf
    refine ⟨h1, h2.trans hcap, ?_⟩
    rw [hcap] at h3
    simp only [List.map_cons, Fifo.calls, ← hanswer, Ring.answer, Option.bind_some, h3, Option.map_some]

theorem sections_exist (version : RingVersion) (requested : Nat) {f : Fifo T} (ops : List (RingOp T)) {rs : List (Res T)} (h : r.WF)
    (hc : r.abs.calls r.capacity ops = some (f, rs)) :
    ∃ r', Sections (version.monitor T requested) r (ops.zip rs) r' ∧ r'.abs = f := by
  induction ops generalizing r rs with
  | nil =>
    cases hc
    exact ⟨r, .nil, rfl⟩
  | cons op ops ih =>
    simp only [Fifo.calls, Option.bind_eq_some_iff, Option.map_eq_some_iff] at hc
    obtain ⟨⟨g, x⟩, hcall, ⟨f', xs⟩, hcalls, he⟩ := hc
    cases he
    have hok := sect_ok version requested op false h
    have hanswer := answers version requested op false h
    rw [hcall] at hanswer
    cases hx : (version.monitor T requested).sect op false r with
    | sleep d v => rw [hx] at hanswer; cases hanswer
    | leave d held later y =>
      rw [hx] at hok hanswer
      cases hanswer
      obtain ⟨hwf, -, hcap⟩ := hok
      rw [← hcap] at hcalls
      obtain ⟨r', hs, hr'⟩ := ih hwf hcalls
      exact ⟨r', .leave hx hs, hr'⟩

end RingVersion

/-- What a history of completed sections is, for the capacity asked for: the
indices stay in the buffer and their successors in a word, the history is one
of the bounded FIFO, and so is whatever section comes next; every version can
complete it, and completes it with these results only. -/
structure RingVersion.IsFifo (version : RingVersion) (requested : BitVec 64) (log : List (RingOp T × Res T)) (r : Ring T) :
    Prop where
  capacity_eq : r.capacity = if requested.toNat = 0 then 1 else requested.toNat
  length_eq : r.buffer.length = r.capacity
  head_lt : r.head < r.capacity
  tail_lt : r.tail < r.capacity
  size_le : r.size ≤ r.capacity
  tail_eq : r.tail = (r.head + r.size) % r.capacity
  divides : 0 < r.capacity
  fits : r.head + 1 < 2 ^ 64 ∧ r.tail + 1 < 2 ^ 64
  history : Fifo.empty.calls r.capacity (log.map (·.1)) = some (r.abs, log.map (·.2))
  next : ∀ op w, Ring.answer ((version.monitor T requested.toNat).sect op w r) = r.abs.call r.capacity op
  shared : ∀ other : RingVersion, ∃ r', Sections (other.monitor T requested.toNat) (Ring.new requested.toNat) log r' ∧
    r'.abs = r.abs
  only : ∀ (other : RingVersion) log' r', Sections (other.monitor T requested.toNat) (Ring.new requested.toNat) log' r' →
    log'.map (·.1) = log.map (·.1) → log' = log ∧ r'.abs = r.abs

theorem abs_new (capacity : Nat) : (Ring.new capacity : Ring T).abs = .empty := rfl

/-- **The ring queues refine one bounded FIFO.** -/
theorem ring_is_fifo (version : RingVersion) (requested : BitVec 64) (log : List (RingOp T × Res T)) (r : Ring T)
    (h : Sections (version.monitor T requested.toNat) (Ring.new requested.toNat) log r) : version.IsFifo requested log r := by
  have hnew : (Ring.new requested.toNat : Ring T).WF := Ring.wf_new _
  obtain ⟨hwf, hcap, hcalls⟩ := RingVersion.sections_calls h hnew
  rw [← hcap, abs_new] at hcalls
  have hlt : r.capacity < 2 ^ 64 := by
    have := requested.isLt
    rw [hcap]
    show (if requested.toNat = 0 then 1 else requested.toNat) < 2 ^ 64
    split <;> omega
  have hhead := hwf.head_lt
  have htail := hwf.tail_lt
  refine ⟨hcap, hwf.length, hhead, htail, hwf.size_le, hwf.tail_eq, hwf.pos, ⟨by omega, by omega⟩, hcalls,
    fun op w => RingVersion.answers version requested.toNat op w hwf, fun other => ?_, fun other log' r' h' hops => ?_⟩
  · rw [hcap, ← abs_new requested.toNat] at hcalls
    obtain ⟨r', hs, hr'⟩ := RingVersion.sections_exist other requested.toNat _ hnew hcalls
    rw [← List.zip_of_prod rfl rfl] at hs
    exact ⟨r', hs, hr'⟩
  · obtain ⟨-, hcap', hcalls'⟩ := RingVersion.sections_calls h' hnew
    rw [hops, abs_new] at hcalls'
    rw [hcap, hcalls'] at hcalls
    simp only [Option.some.injEq, Prod.mk.injEq] at hcalls
    obtain ⟨habs, hres⟩ := hcalls
    exact ⟨(List.zip_of_prod hops hres).trans (List.zip_of_prod rfl rfl).symm, habs⟩

/-- The results of any threads, in lock order, are those of the FIFO. -/
theorem RingVersion.interleaving_calls {Tid : Type} [DecidableEq Tid] [Fintype Tid] {version : RingVersion}
    {requested : Nat} {calls : Tid → RingOp T → Bool} {x : State Tid (Ring T) (RingOp T) Cv (Res T) × List (Tid × RingOp T × Res T)}
    (hx : (((version.monitor T requested).machine calls).logged (version.monitor T requested).completes).Reachable x) :
    Fifo.empty.calls (Ring.new requested : Ring T).capacity (x.2.map (·.2.1)) = some (x.1.data.abs, x.2.map (·.2.2)) := by
  have hs := sections_of_reachable hx
  rw [start_eq] at hs
  have hcalls := (sections_calls hs (Ring.wf_new requested)).2.2
  rwa [List.map_map, List.map_map] at hcalls

theorem ring_is_fifo_one : RingVersion.V3.IsFifo 0#64 [(.emplace (.value 7), .pushed true), (.tryPop true, .popped (some 7))]
    (((Ring.new 0 : Ring Nat).pushBack 7).dropFront) :=
  ring_is_fifo .V3 0#64 _ _ (.leave (w := false) rfl (.leave (w := false) rfl .nil))

end Yutil
