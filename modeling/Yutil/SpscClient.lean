import Yutil.SpscCaches
import Yutil.Fair

/-!
# The client of `SpscBoundedQueue`

One thread pushes a list of values, one after the other and each until it is
accepted; the other pops as many and keeps them in order. Both spin: nothing but
turns on the processor lets them go on. Every fair schedule ends the program,
with the values that were pushed, in their order.
-/

namespace Yutil

open Interleave SpscBoundedQueue

namespace Spsc

variable {T : Type}

/-- The two loops around the queue: the values that the producer has still to
push, those that the consumer has kept, and how many more it wants. -/
structure Spin (T : Type) where
  threads : State T
  left : List T
  values : List T
  wanted : Nat

namespace Spin

def start (values : List T) : Spin T := ⟨⟨SpscBoundedQueue.new T, .idle, .idle⟩, values, [], values.length⟩

def next (s : Spin T) : Party → Option (Label T)
  | .producer =>
    match s.threads.producer with
    | .idle => s.left.head?.map .emplace
    | .done _ _ | .threw => some .pushed
    | _ => some (.producer false)
  | .consumer =>
    match s.threads.consumer with
    | .idle => if s.wanted = 0 then none else some .tryPop
    | .done _ | .threw => some .popped
    | _ => some (.consumer false)

def keep (s : Spin T) : Party → Spin T
  | .producer =>
    match s.threads.producer with
    | .done true _ => { s with left := s.left.tail }
    | _ => s
  | .consumer =>
    match s.threads.consumer with
    | .done (some value) => { s with values := s.values ++ [value], wanted := s.wanted - 1 }
    | _ => s

def turn [Elem T] (capacity : BitVec 64) (s : Spin T) (p : Party) : Spin T :=
  match (s.next p).bind (step capacity false s.threads) with
  | some threads => { s.keep p with threads := threads }
  | none => s

def after [Elem T] (capacity : BitVec 64) (values : List T) (turns : Nat → Party) : Nat → Spin T
  | 0 => start values
  | n + 1 => (after capacity values turns n).turn capacity (turns n)

def finished (s : Spin T) : Prop :=
  s.left = [] ∧ s.wanted = 0 ∧ s.threads.producer = .idle ∧ s.threads.consumer = .idle

/-! ## Turns -/

inductive Turns [Elem T] (capacity : BitVec 64) (s : Spin T) : Party → Spin T → Prop
  | rests {p : Party} : s.next p = none → Turns capacity s p s
  | calls {value : T} {rest : List T} : s.threads.producer = .idle → s.left = value :: rest →
      Turns capacity s .producer { s with threads := { s.threads with producer := .loadTail value } }
  | emplaces {q : SpscBoundedQueue T} {f : Producer T} : Emplaces capacity s.threads.queue false s.threads.producer q f →
      Turns capacity s .producer { s with threads := { s.threads with queue := q, producer := f } }
  | pushed {arg : T} : s.threads.producer = .done true arg →
      Turns capacity s .producer { s with threads := { s.threads with producer := .idle }, left := s.left.tail }
  | refused {arg : T} : s.threads.producer = .done false arg →
      Turns capacity s .producer { s with threads := { s.threads with producer := .idle } }
  | callsPop : s.threads.consumer = .idle → s.wanted ≠ 0 →
      Turns capacity s .consumer { s with threads := { s.threads with consumer := .loadHead } }
  | pops {q : SpscBoundedQueue T} {f : Consumer T} : Pops capacity s.threads.queue false s.threads.consumer q f →
      Turns capacity s .consumer { s with threads := { s.threads with queue := q, consumer := f } }
  | popped {value : T} : s.threads.consumer = .done (some value) →
      Turns capacity s .consumer
        { s with threads := { s.threads with consumer := .idle }, values := s.values ++ [value], wanted := s.wanted - 1 }
  | missed : s.threads.consumer = .done none →
      Turns capacity s .consumer { s with threads := { s.threads with consumer := .idle } }

variable [Elem T] {capacity : BitVec 64}

theorem turn_of_step {s : Spin T} {p : Party} {a : Label T} {t : State T} (ha : s.next p = some a)
    (ht : step capacity false s.threads a = some t) : s.turn capacity p = { s.keep p with threads := t } := by
  simp [turn, ha, ht]

theorem emplace_some (capacity : BitVec 64) (q : SpscBoundedQueue T) (f : Producer T) (hi : f ≠ .idle) (hd : ∀ ok arg, f ≠ .done ok arg)
    (ht : f ≠ .threw) : ∃ x, q.emplace capacity false f = some x := by
  cases f with
  | idle => exact absurd rfl hi
  | done ok arg => exact absurd rfl (hd ok arg)
  | threw => exact absurd rfl ht
  | loadTail arg | loadHead arg tail =>
    simp only [emplace]
    split <;> exact ⟨_, rfl⟩
  | construct arg tail | storeTail value tail => exact ⟨_, rfl⟩

theorem tryPop_some (capacity : BitVec 64) (q : SpscBoundedQueue T) (f : Consumer T) (hi : f ≠ .idle) (hd : ∀ out, f ≠ .done out)
    (ht : f ≠ .threw) : ∃ x, q.tryPop capacity false f = some x := by
  cases f with
  | idle => exact absurd rfl hi
  | done out => exact absurd rfl (hd out)
  | threw => exact absurd rfl ht
  | loadHead | loadTail head =>
    simp only [tryPop]
    split <;> exact ⟨_, rfl⟩
  | moveOut head | destroy head out | storeHead head out => exact ⟨_, rfl⟩

theorem turn_spec {s : Spin T} (hp : s.threads.producer ≠ .threw) (hc : s.threads.consumer ≠ .threw) (p : Party) :
    Turns capacity s p (s.turn capacity p) := by
  cases p with
  | producer =>
    cases hpc : s.threads.producer with
    | idle =>
      cases hleft : s.left with
      | nil =>
        have hnext : s.next .producer = none := by simp [next, hpc, hleft]
        have hturn : s.turn capacity .producer = s := by simp [turn, hnext]
        rw [hturn]
        exact .rests hnext
      | cons value rest =>
        have hnext : s.next .producer = some (.emplace value) := by simp [next, hpc, hleft]
        rw [turn_of_step hnext (by simp only [step, hpc]; rfl)]
        simp only [keep, hpc]
        exact .calls hpc hleft
    | done ok arg =>
      have hnext : s.next .producer = some .pushed := by simp [next, hpc]
      rw [turn_of_step hnext (by simp only [step, hpc]; rfl)]
      cases ok with
      | true =>
        simp only [keep, hpc]
        exact .pushed hpc
      | false =>
        simp only [keep, hpc]
        exact .refused hpc
    | threw => exact absurd hpc hp
    | _ =>
      have hnext : s.next .producer = some (.producer false) := by simp [next, hpc]
      obtain ⟨x, hx⟩ := emplace_some capacity s.threads.queue s.threads.producer (by simp [hpc])
        (by simp [hpc]) (by simp [hpc])
      rw [turn_of_step hnext (by simp only [step, hx]; rfl)]
      simp only [keep, hpc]
      exact .emplaces (emplace_spec hx)
  | consumer =>
    cases hpc : s.threads.consumer with
    | idle =>
      by_cases hwanted : s.wanted = 0
      · have hnext : s.next .consumer = none := by simp [next, hpc, hwanted]
        have hturn : s.turn capacity .consumer = s := by simp [turn, hnext]
        rw [hturn]
        exact .rests hnext
      · have hnext : s.next .consumer = some .tryPop := by simp [next, hpc, hwanted]
        rw [turn_of_step hnext (by simp only [step, hpc]; rfl)]
        simp only [keep, hpc]
        exact .callsPop hpc hwanted
    | done out =>
      have hnext : s.next .consumer = some .popped := by simp [next, hpc]
      rw [turn_of_step hnext (by simp only [step, hpc]; rfl)]
      cases out with
      | some value =>
        simp only [keep, hpc]
        exact .popped hpc
      | none =>
        simp only [keep, hpc]
        exact .missed hpc
    | threw => exact absurd hpc hc
    | _ =>
      have hnext : s.next .consumer = some (.consumer false) := by simp [next, hpc]
      obtain ⟨x, hx⟩ := tryPop_some capacity s.threads.queue s.threads.consumer (by simp [hpc])
        (by simp [hpc]) (by simp [hpc])
      rw [turn_of_step hnext (by simp only [step, hx]; rfl)]
      simp only [keep, hpc]
      exact .pops (tryPop_spec hx)

/-! ## What the loops keep -/

def unsent (s : Spin T) : List T :=
  match s.threads.producer with
  | .done true _ => s.left.tail
  | _ => s.left

def got (s : Spin T) : List T :=
  match s.threads.consumer with
  | .done (some value) => s.values ++ [value]
  | _ => s.values

def Pushing (left : List T) : Producer T → Prop
  | .idle => True
  | .loadTail arg | .loadHead arg _ | .construct arg _ | .storeTail arg _ => left.head? = some arg
  | .done _ _ => left ≠ []
  | .threw => False

/-- The two loops and the queue between them. -/
structure Joined (c : Nat) (all : List T) (s : Spin T) (log : List (Event T)) : Prop where
  recorded : Recorded c s.threads log
  sent : Spsc.pushed log ++ s.unsent = all
  kept : Spsc.popped log = s.got
  pushing : Pushing s.left s.threads.producer
  count : s.values.length + s.wanted = all.length
  wants : s.threads.consumer ≠ .idle → s.wanted ≠ 0
  calm : s.threads.consumer ≠ .threw

section
variable {c : Nat} {all : List T} {s s' : Spin T} {log log' : List (Event T)}

omit [Elem T] in
theorem Joined.producer (h : Joined c all s log) {t : State T} {left : List T} (ht : t.consumer = s.threads.consumer)
    (hr : Recorded c t log') (hpopped : Spsc.popped log' = Spsc.popped log)
    (hsent : Spsc.pushed log' ++ unsent { s with threads := t, left := left } = all) (hp : Pushing left t.producer) :
    Joined c all { s with threads := t, left := left } log' := by
  have hkept := h.kept
  have hwants := h.wants
  have hcalm := h.calm
  unfold got at hkept
  rw [← ht] at hkept hwants hcalm
  exact ⟨hr, hsent, hpopped.trans hkept, hp, h.count, hwants, hcalm⟩

omit [Elem T] in
theorem Joined.consumer (h : Joined c all s log) {t : State T} {values : List T} {wanted : Nat}
    (ht : t.producer = s.threads.producer) (hr : Recorded c t log') (hpushed : Spsc.pushed log' = Spsc.pushed log)
    (hkept : Spsc.popped log' = got { s with threads := t, values := values, wanted := wanted })
    (hcount : values.length + wanted = all.length) (hwants : t.consumer ≠ .idle → wanted ≠ 0) (hcalm : t.consumer ≠ .threw) :
    Joined c all { s with threads := t, values := values, wanted := wanted } log' := by
  have hsent := h.sent
  have hpushing := h.pushing
  unfold unsent at hsent
  rw [← ht] at hsent hpushing
  exact ⟨hr, hpushed ▸ hsent, hkept, hpushing, hcount, hwants, hcalm⟩

variable (hpow : ∃ j, 0 < j ∧ j < 64 ∧ capacity.toNat = 2 ^ j)

include hpow

/-- The step lemma. -/
theorem Joined.turns {p : Party} (h : Joined capacity.toNat all s log) (ht : Turns capacity s p s') :
    ∃ log', Joined capacity.toNat all s' log' := by
  have hsent := h.sent
  have hkept := h.kept
  have hpushing := h.pushing
  have hwants := h.wants
  -- a step that publishes nothing
  have quiet : ∀ {a t}, trace s.threads a = [] → step capacity false s.threads a = some t → Recorded capacity.toNat t log := by
    intro a t he hs
    have hr := h.recorded.step hpow hs
    rwa [he, List.append_nil] at hr
  cases ht with
  | rests _ => exact ⟨log, h⟩
  | @calls value rest hpc hleft =>
    have hs : step capacity false s.threads (.emplace value) = some { s.threads with producer := .loadTail value } := by
      simp only [step, hpc]
    refine ⟨log, h.producer rfl (quiet rfl hs) rfl ?_ (by rw [hleft]; rfl)⟩
    simp only [unsent, hpc] at hsent ⊢
    exact hsent
  | @emplaces q f ha =>
    obtain ⟨headCache, tailCache, hinv⟩ := h.recorded
    obtain ⟨headCache', hinv'⟩ := hinv.emplaces hpow ha
    have hr : Recorded capacity.toNat { s.threads with queue := q, producer := f } (log ++ trace s.threads (.producer false)) := by
      refine ⟨headCache', tailCache, ?_⟩
      rw [pushed_append, popped_append, popped_producer, List.append_nil]
      exact hinv'
    have hpopped : Spsc.popped (log ++ trace s.threads (.producer false)) = Spsc.popped log := by
      rw [popped_append, popped_producer, List.append_nil]
    refine ⟨_, h.producer rfl hr hpopped ?_ ?_⟩
    · rw [pushed_append]
      generalize hpc : s.threads.producer = g at ha
      simp only [unsent, trace, hpc] at hsent ⊢
      cases ha with
      | @storeTail value tail =>
        rw [hpc] at hpushing
        obtain ⟨rest, hrest⟩ := List.head?_eq_some_iff.mp hpushing
        rw [hrest] at hsent ⊢
        rw [List.append_assoc]
        exact hsent
      | _ => simpa [Spsc.pushed] using hsent
    · generalize s.threads.producer = g at ha hpushing
      cases ha with
      | full _ | storeTail =>
        obtain ⟨rest, hrest⟩ := List.head?_eq_some_iff.mp hpushing
        rw [hrest]
        simp [Pushing]
      | _ => exact hpushing
  | @pushed arg hpc =>
    have hs : step capacity false s.threads .pushed = some { s.threads with producer := .idle } := by simp only [step, hpc]
    refine ⟨log, h.producer rfl (quiet rfl hs) rfl ?_ trivial⟩
    simp only [unsent, hpc] at hsent ⊢
    exact hsent
  | @refused arg hpc =>
    have hs : step capacity false s.threads .pushed = some { s.threads with producer := .idle } := by simp only [step, hpc]
    refine ⟨log, h.producer rfl (quiet rfl hs) rfl ?_ trivial⟩
    simp only [unsent, hpc] at hsent ⊢
    exact hsent
  | callsPop hpc hwanted =>
    have hs : step capacity false s.threads .tryPop = some { s.threads with consumer := .loadHead } := by simp only [step, hpc]
    simp only [got, hpc] at hkept
    exact ⟨log, h.consumer rfl (quiet rfl hs) rfl hkept h.count (fun _ => hwanted) (by simp)⟩
  | @pops q f ha =>
    obtain ⟨headCache, tailCache, hinv⟩ := h.recorded
    obtain ⟨tailCache', hinv'⟩ := hinv.pops hpow ha
    have hr : Recorded capacity.toNat { s.threads with queue := q, consumer := f } (log ++ trace s.threads (.consumer false)) := by
      refine ⟨headCache, tailCache', ?_⟩
      rw [pushed_append, popped_append, pushed_consumer, List.append_nil]
      exact hinv'
    have hpushed : Spsc.pushed (log ++ trace s.threads (.consumer false)) = Spsc.pushed log := by
      rw [pushed_append, pushed_consumer, List.append_nil]
    refine ⟨_, h.consumer rfl hr hpushed ?_ h.count (fun _ => hwants ?_) ?_⟩
    · rw [popped_append]
      generalize hpc : s.threads.consumer = g at ha
      simp only [got, trace, hpc] at hkept ⊢
      cases ha with
      | @storeHead head out =>
        show Spsc.popped log ++ [out] = s.values ++ [out]
        rw [hkept]
      | _ => simpa [Spsc.popped] using hkept
    · intro hidle
      rw [hidle] at ha
      cases ha
    · generalize s.threads.consumer = g at ha
      cases ha <;> simp
  | @popped value hpc =>
    have hs : step capacity false s.threads .popped = some { s.threads with consumer := .idle } := by simp only [step, hpc]
    have hcount := h.count
    have hwanted := hwants (by simp [hpc])
    simp only [got, hpc] at hkept
    refine ⟨log, h.consumer rfl (quiet rfl hs) rfl hkept ?_ (fun hidle => absurd rfl hidle) (by simp)⟩
    rw [List.length_append, List.length_singleton]
    omega
  | missed hpc =>
    have hs : step capacity false s.threads .popped = some { s.threads with consumer := .idle } := by simp only [step, hpc]
    simp only [got, hpc] at hkept
    exact ⟨log, h.consumer rfl (quiet rfl hs) rfl hkept h.count (fun hidle => absurd rfl hidle) (by simp)⟩

end

omit [Elem T] in
theorem Joined.running {c : Nat} {all : List T} {s : Spin T} {log : List (Event T)} (h : Joined c all s log) :
    s.threads.producer ≠ .threw := by
  intro hthrew
  have hpushing := h.pushing
  rw [hthrew] at hpushing
  exact hpushing

omit [Elem T] in
theorem Joined.values_le {c : Nat} {all : List T} {s : Spin T} {log : List (Event T)} (h : Joined c all s log) : s.values <+: all := by
  obtain ⟨headCache, tailCache, hinv⟩ := h.recorded
  have hvalues : s.values <+: s.got := by
    unfold got
    split
    · exact List.prefix_append ..
    · exact List.prefix_refl _
  have hpopped : Spsc.popped log <+: Spsc.pushed log := (List.prefix_append ..).trans hinv.order
  have hpushed : Spsc.pushed log <+: all := ⟨s.unsent, h.sent⟩
  exact hvalues.trans (h.kept ▸ hpopped.trans hpushed)

/-! ## Whom the program waits for -/

def ungot (s : Spin T) : Nat :=
  match s.threads.consumer with
  | .done (some _) => s.wanted - 1
  | _ => s.wanted

def producerTurns : Producer T → Nat
  | .done _ _ => 6
  | .idle => 5
  | .loadTail _ => 4
  | .loadHead _ _ => 3
  | .construct _ _ => 2
  | .storeTail _ _ => 1
  | .threw => 0

def consumerTurns : Consumer T → Nat
  | .done _ => 7
  | .idle => 6
  | .loadHead => 5
  | .loadTail _ => 4
  | .moveOut _ => 3
  | .destroy _ _ => 2
  | .storeHead _ _ => 1
  | .threw => 0

def producerReturns : Producer T → Nat
  | .idle => 0
  | _ => 1

def consumerReturns : Consumer T → Nat
  | .idle => 0
  | _ => 1

/-- How far the program is from its end: the items that have to go in and out,
and the turns until the next one does. -/
def rank (s : Spin T) : Nat :=
  10 * (s.unsent.length + s.ungot) +
    if s.ungot = 0 then consumerReturns s.threads.consumer + producerReturns s.threads.producer
    else if s.unsent.length = s.ungot then producerTurns s.threads.producer
    else consumerTurns s.threads.consumer

def waits (s : Spin T) : Party :=
  if s.ungot = 0 then if consumerReturns s.threads.consumer = 0 then .producer else .consumer
  else if s.unsent.length = s.ungot then .producer
  else .consumer

def spent (s : Spin T) : Prop := s.ungot = 0 ∧ s.threads.producer = .idle ∧ s.threads.consumer = .idle

section
variable {s s' : Spin T} (ha : s'.unsent.length = s.unsent.length) (hb : s'.ungot = s.ungot)

include ha hb

omit [Elem T] in
theorem nears_producer (hpos : s.ungot ≠ 0) (hc : s'.threads.consumer = s.threads.consumer)
    (hturn : s.unsent.length = s.ungot → producerTurns s'.threads.producer < producerTurns s.threads.producer) :
    Nears rank waits .producer s s' := by
  by_cases hempty : s.unsent.length = s.ungot
  · refine .inl ?_
    unfold rank
    rw [ha, hb, if_neg hpos, if_neg hpos, if_pos hempty, if_pos hempty]
    exact Nat.add_lt_add_left (hturn hempty) _
  · refine .inr ⟨?_, ?_, ?_⟩
    · simp [waits, hpos, hempty]
    · simp [rank, ha, hb, hpos, hempty, hc]
    · simp [waits, ha, hb, hpos, hempty]

omit [Elem T] in
theorem nears_consumer (hpos : s.ungot ≠ 0) (hp : s'.threads.producer = s.threads.producer)
    (hturn : s.unsent.length ≠ s.ungot → consumerTurns s'.threads.consumer < consumerTurns s.threads.consumer) :
    Nears rank waits .consumer s s' := by
  by_cases hempty : s.unsent.length = s.ungot
  · refine .inr ⟨?_, ?_, ?_⟩
    · simp [waits, hpos, hempty]
    · simp [rank, ha, hb, hpos, hempty, hp]
    · simp [waits, ha, hb, hpos, hempty]
  · refine .inl ?_
    unfold rank
    rw [ha, hb, if_neg hpos, if_neg hpos, if_neg hempty, if_neg hempty]
    exact Nat.add_lt_add_left (hturn hempty) _

end

omit [Elem T] in
theorem producerTurns_le (f : Producer T) : producerTurns f ≤ 6 := by cases f <;> simp [producerTurns]

omit [Elem T] in
theorem consumerTurns_le (f : Consumer T) : consumerTurns f ≤ 7 := by cases f <;> simp [consumerTurns]

omit [Elem T] in
theorem nears_item {p : Party} {s s' : Spin T} (h : s'.unsent.length + s'.ungot < s.unsent.length + s.ungot) :
    Nears rank waits p s s' := by
  have hp := producerTurns_le s'.threads.producer
  have hc := consumerTurns_le s'.threads.consumer
  have hrp : producerReturns s'.threads.producer ≤ 1 := by cases s'.threads.producer <;> simp [producerReturns]
  have hrc : consumerReturns s'.threads.consumer ≤ 1 := by cases s'.threads.consumer <;> simp [consumerReturns]
  refine .inl ?_
  unfold rank
  split_ifs <;> omega

section
variable {all : List T} {s s' : Spin T} {log : List (Event T)} (hpow : ∃ j, 0 < j ∧ j < 64 ∧ capacity.toNat = 2 ^ j)

include hpow

omit [Elem T] in
/-- The counters tell whether an item is in the queue, and whether there is room for one. -/
theorem Joined.counters (h : Joined capacity.toNat all s log) :
    s.unsent.length ≤ s.ungot ∧ (s.threads.queue.tail = s.threads.queue.head → s.unsent.length = s.ungot) ∧
      (s.threads.queue.tail + 1 - s.threads.queue.head > capacity → s.unsent.length ≠ s.ungot) := by
  obtain ⟨headCache, tailCache, hinv⟩ := h.recorded
  obtain ⟨-, hle, hroom⟩ := hinv.size_eq hpow
  have hcap := capacity_bounds hpow
  have hsent := congrArg List.length h.sent
  rw [List.length_append] at hsent
  have hcount := h.count
  have hwants := h.wants
  have hgot : (Spsc.popped log).length + s.ungot = all.length := by
    rw [h.kept]
    unfold got ungot
    split
    · rename_i value hpc
      have hwanted := hwants (by simp [hpc])
      rw [List.length_append, List.length_singleton]
      omega
    · exact hcount
  refine ⟨by omega, fun he => ?_, fun hfull => ?_⟩
  · rw [hinv.counts.tail, hinv.counts.head, empty_iff hpow hle hroom] at he
    omega
  · rw [hinv.counts.tail, hinv.counts.head, full_iff hpow hle hroom] at hfull
    omega

/-- A turn of the thread that the program waits for brings it nearer to its end. -/
theorem Joined.nears {p : Party} (h : Joined capacity.toNat all s log) (hspent : ¬ s.spent) (ht : Turns capacity s p s') :
    Nears rank waits p s s' := by
  obtain ⟨hle, hempty, hfull⟩ := h.counters hpow
  have hpushing := h.pushing
  have hwants := h.wants
  -- while the producer has an item, the consumer wants one
  have hpos : s.unsent ≠ [] → s.ungot ≠ 0 := by
    intro hne
    have := List.length_pos_iff.mpr hne
    omega
  cases ht with
  | rests hnext =>
    refine .inr ⟨?_, rfl, rfl⟩
    cases p with
    | producer =>
      cases hpc : s.threads.producer with
      | idle =>
        have hleft : s.left = [] := by simpa [next, hpc] using hnext
        have hunsent : s.unsent = [] := by simp [unsent, hpc, hleft]
        by_cases hb : s.ungot = 0
        · have hbusy : consumerReturns s.threads.consumer ≠ 0 := by
            intro hidle
            apply hspent
            refine ⟨hb, hpc, ?_⟩
            cases hc : s.threads.consumer with
            | idle => rfl
            | _ => simp [hc, consumerReturns] at hidle
          simp [waits, hb, hbusy]
        · simp [waits, hb, hunsent, Ne.symm hb]
      | _ => simp [next, hpc] at hnext
    | consumer =>
      cases hpc : s.threads.consumer with
      | idle =>
        have hwanted : s.wanted = 0 := by simpa [next, hpc] using hnext
        simp [waits, ungot, hpc, hwanted, consumerReturns]
      | _ => simp [next, hpc] at hnext
  | @calls value rest hpc hleft =>
    have hunsent : s.unsent = s.left := by simp [unsent, hpc]
    refine nears_producer ?_ rfl (hpos ?_) rfl fun _ => ?_
    · rw [hunsent]
      rfl
    · simp [hunsent, hleft]
    · simp [producerTurns, hpc]
  | @emplaces q f ha =>
    obtain ⟨headCache, tailCache, hinv⟩ := h.recorded
    have hok := hinv.producer
    have htail := hinv.counts.tail
    generalize hpc : s.threads.producer = g at ha
    rw [hpc] at hpushing hok
    have hne : s.left ≠ [] := by
      intro hnil
      rw [hnil] at hpushing
      cases ha <;> cases hpushing
    cases ha with
    | storeTail =>
      have hunsent : s.unsent = s.left := by simp [unsent, hpc]
      apply nears_item
      rw [hunsent]
      have := List.length_pos_iff.mpr hne
      show s.left.tail.length + s.ungot < _
      rw [List.length_tail]
      omega
    | @full arg tail hroom =>
      have hunsent : s.unsent = s.left := by simp [unsent, hpc]
      have ht : tail = s.threads.queue.tail := hok.trans htail.symm
      refine nears_producer (by rw [hunsent]; rfl) rfl (hpos (hunsent ▸ hne)) rfl fun he => ?_
      exact absurd he (hfull (ht ▸ hroom))
    | _ =>
      have hunsent : s.unsent = s.left := by simp [unsent, hpc]
      refine nears_producer (by rw [hunsent]; rfl) rfl (hpos (hunsent ▸ hne)) rfl fun _ => ?_
      simp [producerTurns, hpc]
  | @pushed arg hpc =>
    have hunsent : s.unsent = s.left.tail := by simp [unsent, hpc]
    by_cases hb : s.ungot = 0
    · refine .inl ?_
      have hb' : ungot { s with threads := { s.threads with producer := .idle }, left := s.left.tail } = 0 := hb
      simp [rank, hb, hb', unsent, hpc, producerReturns]
    · refine nears_producer (by rw [hunsent]; rfl) rfl hb rfl fun _ => ?_
      simp [producerTurns, hpc]
  | @refused arg hpc =>
    have hunsent : s.unsent = s.left := by simp [unsent, hpc]
    rw [hpc] at hpushing
    refine nears_producer (by rw [hunsent]; rfl) rfl (hpos (hunsent ▸ hpushing)) rfl fun _ => ?_
    simp [producerTurns, hpc]
  | callsPop hpc hwanted =>
    have hungot : s.ungot = s.wanted := by simp [ungot, hpc]
    refine nears_consumer rfl (by rw [hungot]; rfl) (hungot ▸ hwanted) rfl fun _ => ?_
    simp [consumerTurns, hpc]
  | @pops q f ha =>
    obtain ⟨headCache, tailCache, hinv⟩ := h.recorded
    have hok := hinv.consumer
    have hhead := hinv.counts.head
    generalize hpc : s.threads.consumer = g at ha
    rw [hpc] at hok hwants
    have hwanted : s.wanted ≠ 0 := by
      apply hwants
      rintro rfl
      cases ha
    cases ha with
    | storeHead =>
      have hungot : s.ungot = s.wanted := by simp [ungot, hpc]
      apply nears_item
      rw [hungot]
      show s.unsent.length + (s.wanted - 1) < _
      omega
    | @empty head he =>
      have hungot : s.ungot = s.wanted := by simp [ungot, hpc]
      have hh : head = s.threads.queue.head := hok.trans hhead.symm
      refine nears_consumer rfl (by rw [hungot]; rfl) (hungot ▸ hwanted) rfl fun hne => ?_
      exact absurd (hempty (he.trans hh)) hne
    | _ =>
      have hungot : s.ungot = s.wanted := by simp [ungot, hpc]
      refine nears_consumer rfl (by rw [hungot]; rfl) (hungot ▸ hwanted) rfl fun _ => ?_
      simp [consumerTurns, hpc]
  | @popped value hpc =>
    have hungot : s.ungot = s.wanted - 1 := by simp [ungot, hpc]
    by_cases hb : s.ungot = 0
    · refine .inl ?_
      have hb' : s.wanted - 1 = 0 := hungot ▸ hb
      simp [rank, ungot, hpc, hb', unsent, consumerReturns]
    · refine nears_consumer rfl (by rw [hungot]; rfl) hb rfl fun _ => ?_
      simp [consumerTurns, hpc]
  | missed hpc =>
    have hungot : s.ungot = s.wanted := by simp [ungot, hpc]
    have hwanted : s.wanted ≠ 0 := hwants (by simp [hpc])
    refine nears_consumer rfl (by rw [hungot]; rfl) (hungot ▸ hwanted) rfl fun _ => ?_
    simp [consumerTurns, hpc]

omit [Elem T] in
theorem Joined.finished (h : Joined capacity.toNat all s log) (hspent : s.spent) : s.finished ∧ s.values = all := by
  obtain ⟨hle, -, -⟩ := h.counters hpow
  obtain ⟨hungot, hp, hc⟩ := hspent
  have hwanted : s.wanted = 0 := by simpa [ungot, hc] using hungot
  have hleft : s.left = [] := by
    have hunsent : s.unsent = s.left := by simp [unsent, hp]
    rw [hungot, hunsent] at hle
    exact List.length_eq_zero_iff.mp (Nat.le_zero.mp hle)
  have hcount := h.count
  rw [hwanted, Nat.add_zero] at hcount
  exact ⟨⟨hleft, hwanted, hp, hc⟩, h.values_le.eq_of_length hcount⟩

theorem joined_after (values : List T) (turns : Nat → Party) (n : Nat) :
    ∃ log, Joined capacity.toNat values (after capacity values turns n) log := by
  induction n with
  | zero =>
    have hr : ((machine T capacity false).logged trace).Reachable (⟨SpscBoundedQueue.new T, .idle, .idle⟩, []) := .start
    have hstart := recorded_reachable hpow hr
    exact ⟨[], hstart, rfl, rfl, trivial, Nat.zero_add _, fun h => absurd rfl h, by simp [after, start]⟩
  | succ n ih =>
    obtain ⟨log, h⟩ := ih
    exact h.turns hpow (turn_spec h.running h.calm (turns n))

end

theorem turn_finished {s : Spin T} (h : s.finished) (p : Party) : s.turn capacity p = s := by
  obtain ⟨hleft, hwanted, hp, hc⟩ := h
  have hnext : s.next p = none := by cases p <;> simp [next, hp, hc, hleft, hwanted]
  simp [turn, hnext]

end Spin

end Spsc

open Spsc

variable {T : Type} [Elem T] {fuel : Nat} {requested capacity : BitVec 64}

/-- **Every fair schedule ends the client**, with the values in the order in which they were pushed. -/
theorem spsc_client_ends (hcap : normalizeCapacity fuel requested = some capacity) (values : List T) (turns : Nat → Party)
    (hfair : Fair turns) : (∀ n, (Spin.after capacity values turns n).values <+: values) ∧
    ∃ n, ∀ m, n ≤ m → (Spin.after capacity values turns m).finished ∧ (Spin.after capacity values turns m).values = values := by
  have hpow := normalizeCapacity_spec (by decide) hcap
  have hjoined := Spin.joined_after hpow values turns
  constructor
  · intro n
    obtain ⟨log, h⟩ := hjoined n
    exact h.values_le
  · obtain ⟨n, hspent⟩ : ∃ n, (Spin.after capacity values turns n).spent := by
      refine @Fair.ends Party (Spin T) Nat _ turns (Spin.after capacity values turns) Spin.rank Spin.waits Spin.spent _ hfair ?_
      intro n hspent
      obtain ⟨log, h⟩ := hjoined n
      exact h.nears hpow hspent (Spin.turn_spec (h.running) h.calm (turns n))
    obtain ⟨log, h⟩ := hjoined n
    refine ⟨n, fun m hm => ?_⟩
    induction hm with
    | refl => exact h.finished hpow hspent
    | @step m _ ih =>
      have hturn : Spin.after capacity values turns (m + 1) = Spin.after capacity values turns m := Spin.turn_finished ih.1 _
      rw [hturn]
      exact ih

def alternating (n : Nat) : Party := if n % 2 = 0 then .producer else .consumer

theorem spsc_client_ends_two : ∃ n, ∀ m, n ≤ m → (Spin.after 2#64 [7, 8, 9] alternating m).values = [7, 8, 9] := by
  have hcap : normalizeCapacity 3 2#64 = some 2#64 := by decide
  have hfair : Fair alternating := by
    intro p n
    cases p with
    | producer => exact ⟨2 * n, by omega, by simp [alternating]⟩
    | consumer => exact ⟨2 * n + 1, by omega, by simp [alternating, Nat.add_mod]⟩
  obtain ⟨n, hn⟩ := (spsc_client_ends hcap [7, 8, 9] alternating hfair).2
  exact ⟨n, fun m hm => (hn m hm).2⟩

end Yutil
