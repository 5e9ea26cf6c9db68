import Yutil.SpscFifo
import Yutil.Objects

/-!
# Objects in the slots

`SpscBoundedQueue` builds an object in a slot that holds none and destroys it
when the item has been moved out. What is left when both calls have returned
is in the slots from `head_` to `tail_`, and the destructor's `drain()` visits
these: the loop runs over counters that may wrap on its way, but they are never
more than a capacity apart.
-/

namespace Yutil

open Interleave SpscBoundedQueue

namespace Spsc

variable {T : Type} {capacity : BitVec 64} {throwing : Bool} {s s' : State T} {log : List (Event T)}
  {objs : List (Nat × ObjectEvent)}

def objects (capacity : BitVec 64) (s : State T) : Label T → List (Nat × ObjectEvent)
  | .producer false =>
    match s.producer with
    | .construct _ tail => [(index capacity tail, .built)]
    | _ => []
  | .consumer false =>
    match s.consumer with
    | .destroy head _ => [(index capacity head, .destroyed)]
    | _ => []
  | _ => []

def drained (capacity : BitVec 64) (visited : List (BitVec 64 × Option T)) : List (Nat × ObjectEvent) :=
  visited.map fun x => (index capacity x.1, .destroyed)

/-- A slot holds an object when its destructor runs, and none where there is no slot. -/
structure InPlace (capacity : BitVec 64) (s : State T) : Prop where
  beyond : ∀ i, capacity.toNat ≤ i → s.queue.storage i = none
  destroy : ∀ head out, s.consumer = .destroy head out → (s.queue.ptr capacity head).isSome = true

section
variable (hpow : ∃ j, 0 < j ∧ j < 64 ∧ capacity.toNat = 2 ^ j)

include hpow

theorem index_plus (head : BitVec 64) (i : Nat) :
    index capacity (head + BitVec.ofNat 64 i) = (head.toNat + i) % capacity.toNat := by
  rw [← index_word hpow, BitVec.ofNat_add, BitVec.ofNat_toNat, BitVec.setWidth_eq]

theorem index_lt (pos : BitVec 64) : index capacity pos < capacity.toNat := by
  have := index_plus hpow pos 0
  rw [show pos + BitVec.ofNat 64 0 = pos from BitVec.add_zero pos] at this
  rw [this]
  apply Nat.mod_lt
  have := (capacity_bounds hpow).1
  omega

theorem index_ne (head : BitVec 64) {i j : Nat} (hij : i < j) (hj : j < i + capacity.toNat) :
    index capacity (head + BitVec.ofNat 64 j) ≠ index capacity (head + BitVec.ofNat 64 i) := by
  rw [index_plus hpow, index_plus hpow]
  intro h
  have := Counter.lap_le h (by omega)
  omega

/-! ## The loop of `drain()` -/

/-- Over a window of slots with objects in them the loop visits each once, in
order, and leaves them empty. -/
theorem drain_loop (values : List T) (q : SpscBoundedQueue T) (head : BitVec 64) (hlen : values.length ≤ capacity.toNat)
    (hslots : ∀ i (hi : i < values.length), q.ptr capacity (head + BitVec.ofNat 64 i) = some values[i]) :
    ∃ q' visited,
      (∀ fuel, values.length < fuel →
        drain.loop capacity (head + BitVec.ofNat 64 values.length) fuel q head = some (q', visited)) ∧
      visited.map Prod.fst = (List.range values.length).map (fun i => head + BitVec.ofNat 64 i) ∧
      visited.map Prod.snd = values.map some ∧
      (∀ i, i < values.length → q'.ptr capacity (head + BitVec.ofNat 64 i) = none) ∧
      (∀ i, q.storage i = none → q'.storage i = none) ∧
      ∀ objs, Kept q.storage objs → Kept q'.storage (objs ++ drained capacity visited) := by
  induction values generalizing q head with
  | nil =>
    have hstop : head + BitVec.ofNat 64 ([] : List T).length = head := BitVec.add_zero head
    refine ⟨q, [], fun fuel hfuel => ?_, rfl, rfl, fun i hi => absurd hi (Nat.not_lt_zero i), fun i hi => hi,
      fun objs hk => ?_⟩
    · obtain ⟨n, rfl⟩ := Nat.exists_eq_add_of_lt hfuel
      rw [hstop]
      unfold drain.loop
      rw [if_neg fun h => h rfl]
    · show Kept q.storage (objs ++ [])
      rw [List.append_nil]
      exact hk
  | cons value rest ih =>
    have hb := (capacity_bounds hpow).2
    simp only [List.length_cons] at hlen hslots ⊢
    have hplus : ∀ i, head + 1 + BitVec.ofNat 64 i = head + BitVec.ofNat 64 (i + 1) := by
      intro i
      rw [Nat.add_comm, BitVec.ofNat_add, ← BitVec.add_assoc]
      rfl
    have hfirst : q.ptr capacity head = some value := by
      have := hslots 0 (Nat.zero_lt_succ _)
      rwa [show head + BitVec.ofNat 64 0 = head from BitVec.add_zero head] at this
    -- the other slots are not the first one
    have hother : ∀ i, i < rest.length → index capacity (head + BitVec.ofNat 64 (i + 1)) ≠ index capacity head := by
      intro i hi
      have := index_ne hpow head (Nat.zero_lt_succ i) (by omega)
      rwa [show head + BitVec.ofNat 64 0 = head from BitVec.add_zero head] at this
    have hmore : head ≠ head + BitVec.ofNat 64 (rest.length + 1) := by
      intro h
      have hz := congrArg BitVec.toNat (BitVec.add_right_eq_self.mp h.symm)
      rw [BitVec.toNat_ofNat, Nat.mod_eq_of_lt (by omega)] at hz
      cases hz
    obtain ⟨q', visited, h1, h2, h3, h4, h5, h6⟩ := ih (q.put capacity head none) (head + 1) (by omega)
      fun i hi => by
        rw [hplus]
        show Function.update q.storage (index capacity head) none (index capacity _) = _
        rw [Function.update_of_ne (hother i hi)]
        exact hslots (i + 1) (by omega)
    refine ⟨q', (head, some value) :: visited, fun fuel hfuel => ?_, ?_, ?_, fun i hi => ?_, fun i hi => ?_,
      fun objs hk => ?_⟩
    · obtain ⟨n, rfl⟩ : ∃ n, fuel = n + 1 := ⟨fuel - 1, by omega⟩
      unfold drain.loop
      rw [if_pos hmore, ← hplus, h1 n (by omega), hfirst]
      rfl
    · rw [List.map_cons, h2, List.range_succ_eq_map, List.map_cons, List.map_map]
      congr 1
      · exact (BitVec.add_zero head).symm
      · apply List.map_congr_left
        intro i _
        exact hplus i
    · rw [List.map_cons, h3, List.map_cons]
    · cases i with
      | zero =>
        show q'.ptr capacity (head + BitVec.ofNat 64 0) = none
        rw [show head + BitVec.ofNat 64 0 = head from BitVec.add_zero head]
        exact h5 _ (Function.update_self ..)
      | succ i =>
        rw [← hplus]
        exact h4 i (by omega)
    · apply h5
      show Function.update q.storage (index capacity head) none i = none
      by_cases he : i = index capacity head
      · rw [he, Function.update_self]
      · rw [Function.update_of_ne he, hi]
    · have := h6 _ (hk.destroy (i := index capacity head) (by
        show (q.ptr capacity head).isSome = true
        rw [hfirst]
        rfl))
      rw [List.append_assoc] at this
      exact this

/-! ## Steps -/

variable [Elem T]

theorem InPlace.step {a : Label T} (h : InPlace capacity s) (hs : Spsc.step capacity throwing s a = some s') :
    InPlace capacity s' := by
  -- no slot outside of the storage is touched
  have put : ∀ (q : SpscBoundedQueue T) pos x, (∀ i, capacity.toNat ≤ i → q.storage i = none) →
      ∀ i, capacity.toNat ≤ i → (q.put capacity pos x).storage i = none := by
    intro q pos x hq i hi
    have hne : i ≠ index capacity pos := by
      have := index_lt hpow pos
      omega
    exact (Function.update_of_ne hne ..).trans (hq i hi)
  have filled : ∀ (q : SpscBoundedQueue T) pos (x : T) pos', (q.ptr capacity pos').isSome = true →
      ((q.put capacity pos (some x)).ptr capacity pos').isSome = true := by
    intro q pos x pos' hq
    show (Function.update q.storage (index capacity pos) (some x) (index capacity pos')).isSome = true
    by_cases he : index capacity pos' = index capacity pos
    · rw [he, Function.update_self]
      rfl
    · rw [Function.update_of_ne he]
      exact hq
  obtain ⟨queue, producer, consumer⟩ := s
  have hbeyond : ∀ i, capacity.toNat ≤ i → queue.storage i = none := h.beyond
  have hdestroy : ∀ head out, consumer = .destroy head out → (queue.ptr capacity head).isSome = true := h.destroy
  cases step_spec hs with
  | emplace _ => exact ⟨h.beyond, h.destroy⟩
  | pushed _ => exact ⟨h.beyond, h.destroy⟩
  | tryPop _ => exact ⟨h.beyond, nofun⟩
  | popped _ => exact ⟨h.beyond, nofun⟩
  | producer _ ha =>
    cases ha with
    | construct => exact ⟨put _ _ _ hbeyond, fun head out hc => filled _ _ _ _ (hdestroy head out hc)⟩
    | _ => exact ⟨h.beyond, h.destroy⟩
  | @consumer throws q f _ ha =>
    cases ha with
    | @moveOut head value _ =>
      refine ⟨put _ _ _ hbeyond, fun _ _ hc => ?_⟩
      cases hc
      show (Function.update queue.storage (index capacity head) _ (index capacity head)).isSome = true
      rw [Function.update_self]
      rfl
    | destroy => exact ⟨put _ _ _ h.beyond, nofun⟩
    | _ => exact ⟨h.beyond, nofun⟩

theorem inPlace_reachable (h : (machine T capacity throwing).Reachable s) : InPlace capacity s := by
  refine h.invariant (I := InPlace capacity) ⟨fun _ _ => rfl, nofun⟩ ?_
  intro s a s' _ ih hs
  exact ih.step hpow hs

omit hpow in
theorem kept_step {a : Label T} (hp : InPlace capacity s) (hconstruct : ∀ arg tail, s.producer = .construct arg tail →
      s.queue.ptr capacity tail = none)
    (hmove : ∀ head, s.consumer = .moveOut head → (s.queue.ptr capacity head).isSome = true)
    (h : Kept s.queue.storage objs) (hs : Spsc.step capacity throwing s a = some s') :
    Kept s'.queue.storage (objs ++ objects capacity s a) := by
  have hdestroy := hp.destroy
  obtain ⟨queue, producer, consumer⟩ := s
  have quiet : objects capacity ⟨queue, producer, consumer⟩ a = [] → s'.queue.storage = queue.storage →
      Kept s'.queue.storage (objs ++ objects capacity ⟨queue, producer, consumer⟩ a) := by
    intro h1 h2
    rw [h1, h2, List.append_nil]
    exact h
  cases step_spec hs with
  | emplace _ => exact quiet rfl rfl
  | pushed _ => exact quiet rfl rfl
  | tryPop _ => exact quiet rfl rfl
  | popped _ => exact quiet rfl rfl
  | producer _ ha =>
    cases ha with
    | construct => exact h.build (hconstruct _ _ rfl) _
    | _ => exact quiet rfl rfl
  | consumer _ ha =>
    cases ha with
    | @moveOut head value _ =>
      show Kept _ (objs ++ [])
      rw [List.append_nil]
      exact h.replace (hmove head rfl).symm
    | destroy => exact h.destroy (hdestroy _ _ rfl)
    | _ => exact quiet rfl rfl

end

end Spsc

open Spsc

variable {T : Type} [Elem T] {fuel : Nat} {requested capacity : BitVec 64}

def Spsc.objectMachine (T : Type) [Elem T] (capacity : BitVec 64) (throwing : Bool) :
    Machine ((Spsc.State T × List (Event T)) × List (Nat × ObjectEvent)) (Spsc.Label T) :=
  ((Spsc.machine T capacity throwing).logged trace).logged fun x a => objects capacity x.1 a

theorem Spsc.kept (hcap : normalizeCapacity fuel requested = some capacity) {throwing : Bool}
    {x : (Spsc.State T × List (Event T)) × List (Nat × ObjectEvent)}
    (hr : (Spsc.objectMachine T capacity throwing).Reachable x) : Kept x.1.1.queue.storage x.2 := by
  have hpow := normalizeCapacity_spec (by decide) hcap
  refine hr.invariant (I := fun x => Kept x.1.1.queue.storage x.2) Kept.start ?_
  intro x a x' hx ih hs
  obtain ⟨h1, h2⟩ := Machine.logged_step.mp hs
  obtain ⟨h3, -⟩ := Machine.logged_step.mp h1
  have hlog := Machine.logged_reachable hx
  obtain ⟨-, -, -, hconstruct, hmove⟩ := spsc_fifo hcap throwing hlog
  rw [h2]
  refine kept_step (inPlace_reachable hpow (Machine.logged_reachable hlog)) hconstruct (fun head hc => ?_) ih h3
  obtain ⟨value, hvalue, -⟩ := hmove head hc
  rw [hvalue]
  rfl

/-- **Every object is destroyed once.** In every reachable state objects have
been built in empty slots and destroyed in slots that held one. When both calls
have returned, `drain()` ends within a capacity of rounds, visits the slots from
`head_` to `tail_`, each with an item that was not popped, and then every object
that was built is gone. -/
theorem spsc_objects_destroyed (hcap : normalizeCapacity fuel requested = some capacity) (throwing : Bool)
    {s : Spsc.State T} {log : List (Event T)} {objs : List (Nat × ObjectEvent)}
    (hr : (Spsc.objectMachine T capacity throwing).Reachable ((s, log), objs)) :
    Kept s.queue.storage objs ∧
    (s.producer = .idle → s.consumer = .idle → ∃ q visited,
      (∀ rounds, capacity.toNat < rounds → s.queue.drain capacity rounds = some (q, visited)) ∧
      visited.length ≤ capacity.toNat ∧
      visited.map Prod.fst = (List.range (s.queue.tail - s.queue.head).toNat).map (fun i => s.queue.head + BitVec.ofNat 64 i) ∧
      visited.map Prod.snd = ((pushed log).drop (popped log).length).map some ∧
      ∀ i, q.storage i = none ∧ Gone (ofSlot i (objs ++ drained capacity visited))) := by
  have hpow := normalizeCapacity_spec (by decide) hcap
  have hlog := Machine.logged_reachable hr
  refine ⟨Spsc.kept hcap hr, fun hp hc => ?_⟩
  obtain ⟨headCache, tailCache, h⟩ := recorded_reachable hpow hlog
  obtain ⟨hsize, hlen, hroom⟩ := h.size_eq hpow
  have hslots := h.slots_eq hpow
  rw [hc, show inHand (.idle : Consumer T) = [] from rfl, List.append_nil, List.length_nil, List.drop_zero] at hslots
  have hcount : ((pushed log).drop (popped log).length).length = (s.queue.tail - s.queue.head).toNat := by
    rw [List.length_drop, hsize]
  have htail : s.queue.head + BitVec.ofNat 64 (s.queue.tail - s.queue.head).toNat = s.queue.tail := by
    rw [BitVec.ofNat_toNat, BitVec.setWidth_eq, BitVec.add_comm, BitVec.sub_add_cancel]
  obtain ⟨q, visited, h1, h2, h3, h4, h5, h6⟩ := drain_loop hpow ((pushed log).drop (popped log).length)
    s.queue s.queue.head (by omega) (by
      intro i hi
      have hget := congrArg (·[i]?) hslots
      simp only [slots, List.getElem?_map] at hget
      rw [List.getElem?_range (by omega), List.getElem?_eq_getElem hi] at hget
      exact Option.some.inj hget)
  rw [hcount, htail] at h1
  rw [hcount] at h2 h4
  have hvisited : visited.length = (s.queue.tail - s.queue.head).toNat := by
    rw [← List.length_map, h2, List.length_map, List.length_range]
  have hnone : ∀ i, q.storage i = none := by
    intro i
    by_cases hi : i < capacity.toNat
    · obtain ⟨k, hk1, hk2, hk3⟩ := Counter.exists_window (Nat.lt_of_le_of_lt (Nat.zero_le i) hi) (popped log).length i
      rw [Nat.mod_eq_of_lt hi] at hk3
      by_cases hk : k < (pushed log).length
      · obtain ⟨m, rfl⟩ := Nat.exists_eq_add_of_le hk1
        have := h4 m (by omega)
        rw [h.counts.head, ← BitVec.ofNat_add, ptr_word hpow, hk3] at this
        exact this
      · have := h.free k (by rw [hp]; exact Nat.le_of_not_lt hk) hk2
        rw [hk3] at this
        exact h5 i this
    · exact h5 i ((inPlace_reachable hpow (Machine.logged_reachable hlog)).beyond i (Nat.le_of_not_lt hi))
  refine ⟨q, visited, fun rounds hr => h1 rounds (by omega), by omega, h2, h3, fun i => ⟨hnone i, ?_⟩⟩
  have := h6 objs (Spsc.kept hcap hr) i
  rw [hnone i] at this
  exact this.gone

def pushPushPopped : List (Spsc.Label Nat) :=
  [.emplace 7, .producer false, .producer false, .producer false, .pushed, .emplace 8, .producer false, .producer false,
    .producer false, .pushed, .tryPop, .consumer false, .consumer false, .consumer false, .consumer false,
    .consumer false, .popped]

theorem spsc_objects_destroyed_one : ∃ x, (Spsc.objectMachine Nat 2#64 false).exec pushPushPopped = some x ∧
    ∃ q visited, x.1.1.queue.drain 2#64 3 = some (q, visited) ∧ visited.map Prod.snd = [some 8] ∧
      Gone (ofSlot 1 (x.2 ++ drained 2#64 visited)) := by
  have hrun : ((Spsc.objectMachine Nat 2#64 false).exec pushPushPopped).map (fun x =>
      (x.1.1.producer, x.1.1.consumer, (pushed x.1.2).drop (popped x.1.2).length)) = some (.idle, .idle, [8]) := by decide
  obtain ⟨x, hx, he⟩ := Option.map_eq_some_iff.mp hrun
  simp only [Prod.mk.injEq] at he
  have hcap : normalizeCapacity 3 2#64 = some 2#64 := by decide
  obtain ⟨-, h⟩ := spsc_objects_destroyed hcap false (Machine.exec_reachable _ hx)
  obtain ⟨q, visited, h1, -, -, h2, h3⟩ := h he.1 he.2.1
  exact ⟨x, hx, q, visited, h1 3 (by decide), by rw [h2, he.2.2]; rfl, (h3 1).2⟩

end Yutil
