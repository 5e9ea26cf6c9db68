import Yutil.SpscOrders
import Yutil.SpscDrain

/-!
# Release and acquire in `SpscBoundedQueue`

A slot is handed over by the store behind its last access, so whoever has
loaded that store, or a later one, has seen all accesses to the slot. A load
may answer with an old counter, which only makes a side see less room or fewer
items than there are.
-/

namespace Yutil

open Interleave SpscBoundedQueue

namespace Spsc

section
variable {T : Type} [Elem T] {capacity : BitVec 64} {throwing : Bool}

/-! ## Exact steps and old counters -/

variable {y y' : State T} {log : List (Event T)} {accepted returned : List T} {headCache tailCache : Nat}

omit [Elem T] in
theorem Inv.sees_head (h : Inv capacity.toNat y accepted returned headCache tailCache) {f : Producer T} {i : Nat}
    (hi : headCache ≤ i) (hi' : i ≤ returned.length) (hb : built y.producer = []) (hf : built f = [])
    (hok : ProducerOk capacity.toNat y.queue.storage accepted.length i f) :
    Inv capacity.toNat ⟨{ y.queue with headCache := BitVec.ofNat 64 i }, f, y.consumer⟩ accepted returned i tailCache := by
  have h4 := h.bound
  refine ⟨{ h.counts with headCache := rfl }, hi', h.cache_le, h.tail_le, by omega, h.order, h.live, ?_, hok, h.consumer⟩
  rw [hf, ← hb]
  exact h.free

omit [Elem T] in
theorem Inv.sees_tail (h : Inv capacity.toNat y accepted returned headCache tailCache) {f : Consumer T} {i : Nat}
    (hi : tailCache ≤ i) (hi' : i ≤ accepted.length) (hb : inHand y.consumer = []) (hf : inHand f = [])
    (hok : ConsumerOk capacity.toNat y.queue.storage returned.length i f) :
    Inv capacity.toNat ⟨{ y.queue with tailCache := BitVec.ofNat 64 i }, y.producer, f⟩ accepted returned headCache i := by
  have h2 := h.cache_le
  refine ⟨{ h.counts with tailCache := rfl }, h.head_le, h2.trans hi, hi', h.bound, ?_, ?_, h.free, h.producer, hok⟩
  · rw [hf, ← hb]
    exact h.order
  · rw [hf, ← hb]
    exact h.live

omit [Elem T] in
theorem trace_length (y : State T) (b : Label T) : (trace y b).length ≤ 1 := by
  unfold trace
  split
  · split
    · exact Nat.le_refl 1
    · exact Nat.zero_le 1
  · split
    · exact Nat.le_refl 1
    · exact Nat.zero_le 1
  · exact Nat.zero_le 1

variable (hpow : ∃ j, 0 < j ∧ j < 64 ∧ capacity.toNat = 2 ^ j)

include hpow

theorem Inv.exact (h : Inv capacity.toNat y (pushed log) (popped log) headCache tailCache) {b : Label T}
    (hs : Spsc.step capacity throwing y b = some y') (hp : y'.queue.headCache = y.queue.headCache)
    (hc : y'.queue.tailCache = y.queue.tailCache) :
    Inv capacity.toNat y' (pushed (log ++ trace y b)) (popped (log ++ trace y b)) headCache tailCache := by
  obtain ⟨headCache', tailCache', h'⟩ := Recorded.step hpow (⟨headCache, tailCache, h⟩ : Recorded capacity.toNat y log) hs
  have hb := (capacity_bounds hpow).2
  have hone : (pushed (trace y b)).length ≤ 1 ∧ (popped (trace y b)).length ≤ 1 :=
    ⟨(List.length_filterMap_le _ _).trans (trace_length y b), (List.length_filterMap_le _ _).trans (trace_length y b)⟩
  have hlen : (pushed (log ++ trace y b)).length ≤ (pushed log).length + 1 ∧
      (pushed log).length ≤ (pushed (log ++ trace y b)).length ∧
      (popped (log ++ trace y b)).length ≤ (popped log).length + 1 ∧
      (popped log).length ≤ (popped (log ++ trace y b)).length := by
    rw [pushed_append, popped_append, List.length_append, List.length_append]
    omega
  have h1 := h.head_le
  have h2 := h.cache_le
  have h3 := h.tail_le
  have h4 := h.bound
  have h5 := h'.head_le
  have h6 := h'.cache_le
  have h7 := h'.tail_le
  have h8 := h'.bound
  obtain rfl : headCache' = headCache := by
    have he : BitVec.ofNat 64 headCache' = BitVec.ofNat 64 headCache := by
      rw [← h'.counts.headCache, hp, h.counts.headCache]
    rcases Nat.le_total headCache headCache' with hle | hle
    · exact (Counter.word_eq hle (by omega)).mp he
    · exact ((Counter.word_eq hle (by omega)).mp he.symm).symm
  obtain rfl : tailCache' = tailCache := by
    have he : BitVec.ofNat 64 tailCache' = BitVec.ofNat 64 tailCache := by
      rw [← h'.counts.tailCache, hc, h.counts.tailCache]
    rcases Nat.le_total tailCache tailCache' with hle | hle
    · exact (Counter.word_eq hle (by omega)).mp he
    · exact ((Counter.word_eq hle (by omega)).mp he.symm).symm
  exact h'

end

/-! ## What each side has seen -/

section
variable {T : Type}

/-- The threads, their memory and what they have seen of it, against the counts of `y`. -/
structure Tied (c : Nat) (s : Program.Viewed Party Counters Nat (Option T) (Local T)) (y : State T) (log : List (Event T)) :
    Prop where
  latest : s.latest = spread y
  head_last : s.mem.last .head = (popped log).length
  tail_last : s.mem.last .tail = (pushed log).length
  words : ∀ a j, j ≤ s.mem.last a → (s.mem.stores a j).value = BitVec.ofNat 64 j
  inv : Inv c y (pushed log) (popped log) (s.view .producer (.inl .head)) (s.view .consumer (.inl .tail))
  producer : s.mem.Side (· % c) .tail .head c (s.view .producer) (s.view .consumer)
  consumer : s.mem.Side (· % c) .head .tail 0 (s.view .consumer) (s.view .producer)
  refused : ∀ arg headCache, s.pc .producer = .producer (.done false arg) headCache →
    (pushed log).length = s.view .producer (.inl .head) + c
  missed : ∀ tailCache, s.pc .consumer = .consumer (.done none) tailCache →
    (popped log).length = s.view .consumer (.inl .tail)

variable {capacity : BitVec 64} {throwing throws : Bool} {c i : Nat}
  {s s' : Program.Viewed Party Counters Nat (Option T) (Local T)} {y : State T} {log : List (Event T)}

theorem Tied.pc_producer (h : Tied c s y log) : s.pc .producer = .producer y.producer y.queue.headCache :=
  congrFun (congrArg Program.Interleaved.pc h.latest) .producer

theorem Tied.pc_consumer (h : Tied c s y log) : s.pc .consumer = .consumer y.consumer y.queue.tailCache :=
  congrFun (congrArg Program.Interleaved.pc h.latest) .consumer

variable [Elem T] (hpow : ∃ j, 0 < j ∧ j < 64 ∧ capacity.toNat = 2 ^ j)

omit [Elem T] in
theorem Tied.producer_touches (h : Tied c s y log) (hlt : (pushed log).length < s.view .producer (.inl .head) + c)
    (z : Option T) {pos : Nat} (hpos : pos = (pushed log).length % c) :
    (s.mem.touch pos z).Side (· % c) .tail .head c (s.mem.touched (s.view .producer) pos) (s.view .consumer) ∧
      (s.mem.touch pos z).Side (· % c) .head .tail 0 (s.view .consumer) (s.mem.touched (s.view .producer) pos) := by
  subst hpos
  have h1 := h.inv.head_le
  have h2 := h.inv.cache_le
  have h3 := h.inv.tail_le
  have h5 := h.head_last
  have h6 := h.tail_last
  refine h.producer.touches h.consumer (pushed log).length z (fun k hk hne => ?_) h6.symm fun k hk => ?_
  · have hj : s.view .producer (.inl .head) ≤ k ∧ k < s.view .producer (.inl .head) + c := by omega
    exact slot_ne hj.1 hj.2 (by omega) hlt hne
  · omega

omit [Elem T] in
theorem Tied.consumer_touches (h : Tied c s y log) (hlt : (popped log).length < s.view .consumer (.inl .tail))
    (z : Option T) {pos : Nat} (hpos : pos = (popped log).length % c) :
    (s.mem.touch pos z).Side (· % c) .head .tail 0 (s.mem.touched (s.view .consumer) pos) (s.view .producer) ∧
      (s.mem.touch pos z).Side (· % c) .tail .head c (s.view .producer) (s.mem.touched (s.view .consumer) pos) := by
  subst hpos
  have h1 := h.inv.head_le
  have h2 := h.inv.cache_le
  have h3 := h.inv.tail_le
  have h4 := h.inv.bound
  have h5 := h.head_last
  have h6 := h.tail_last
  refine h.consumer.touches h.producer (popped log).length z (fun k hk hne => ?_) h5.symm fun k hk => ?_
  · have hj : s.view .producer (.inl .head) ≤ k ∧ k < s.view .producer (.inl .head) + c := by omega
    exact slot_ne hj.1 hj.2 (by omega) (by omega) hne
  · omega

include hpow

theorem Tied.exactly (h : Tied capacity.toNat s y log) {a : Program.Label Party (Env T) Bool}
    (hs : (program T capacity throwing).interleaved.step s.latest a = some s'.latest)
    {f : Producer T} {g : Consumer T} (hf : s'.pc .producer = .producer f y.queue.headCache)
    (hg : s'.pc .consumer = .consumer g y.queue.tailCache) :
    ∃ y', s'.latest = spread y' ∧ Inv capacity.toNat y' (pushed (log ++ emit s.latest a)) (popped (log ++ emit s.latest a))
      (s.view .producer (.inl .head)) (s.view .consumer (.inl .tail)) := by
  rw [h.latest, interleaved_step] at hs
  obtain ⟨y', hy, hlatest⟩ := Option.map_eq_some_iff.mp hs
  obtain ⟨b, hb, hy⟩ := Option.bind_eq_some_iff.mp hy
  have hp : Local.producer f y.queue.headCache = .producer y'.producer y'.queue.headCache :=
    hf.symm.trans (congrFun (congrArg Program.Interleaved.pc hlatest.symm) .producer)
  have hc : Local.consumer g y.queue.tailCache = .consumer y'.consumer y'.queue.tailCache :=
    hg.symm.trans (congrFun (congrArg Program.Interleaved.pc hlatest.symm) .consumer)
  injection hp with _ hp
  injection hc with _ hc
  refine ⟨y', hlatest.symm, ?_⟩
  rw [h.latest, emit_spread y hb]
  exact h.inv.exact hpow hy hp.symm hc.symm

omit [Elem T] hpow in
theorem callOrReturn_producer {e : Env T} {f : Producer T} {headCache : BitVec 64} {x : Local T}
    (h : callOrReturn e (.producer f headCache) = some x) :
    ∃ g, x = .producer g headCache ∧ ∀ arg, g ≠ .done false arg := by
  cases e with
  | enter op =>
    cases op with
    | tryPush arg =>
      cases f <;> cases h
      exact ⟨_, rfl, nofun⟩
    | tryPop => cases f <;> cases h
  | leave => cases f <;> cases h <;> exact ⟨_, rfl, nofun⟩

omit [Elem T] hpow in
theorem callOrReturn_consumer {e : Env T} {f : Consumer T} {tailCache : BitVec 64} {x : Local T}
    (h : callOrReturn e (.consumer f tailCache) = some x) :
    ∃ g, x = .consumer g tailCache ∧ g ≠ .done none := by
  cases e with
  | enter op =>
    cases op with
    | tryPush arg => cases f <;> cases h
    | tryPop =>
      cases f <;> cases h
      exact ⟨_, rfl, nofun⟩
  | leave => cases f <;> cases h <;> exact ⟨_, rfl, nofun⟩

theorem Tied.env_step (h : Tied capacity.toNat s y log) {t : Party} {e : Env T} {x : Local T}
    (he : (program T capacity throwing).env t e (s.pc t) = some x) :
    ∃ y', Tied capacity.toNat { s with pc := Function.update s.pc t x } y' log := by
  have hs := Program.Viewed.env_latest he
  have hexact := fun f g => h.exactly hpow hs (f := f) (g := g)
  rw [show emit s.latest (.env t e) = [] from rfl, List.append_nil] at hexact
  have he : callOrReturn e (s.pc t) = some x := he
  cases t with
  | producer =>
    rw [h.pc_producer] at he
    obtain ⟨g, rfl, hg⟩ := callOrReturn_producer he
    obtain ⟨y', hlatest, hinv⟩ := hexact g y.consumer (by simp) h.pc_consumer
    refine ⟨y', { h with latest := hlatest, inv := hinv, refused := fun arg headCache hp => ?_ }⟩
    have hp : Local.producer g y.queue.headCache = .producer (.done false arg) headCache := hp
    injection hp with hp
    exact absurd hp (hg arg)
  | consumer =>
    rw [h.pc_consumer] at he
    obtain ⟨g, rfl, hg⟩ := callOrReturn_consumer he
    obtain ⟨y', hlatest, hinv⟩ := hexact y.producer g h.pc_producer (by simp)
    refine ⟨y', { h with latest := hlatest, inv := hinv, missed := fun tailCache hp => ?_ }⟩
    have hp : Local.consumer g y.queue.tailCache = .consumer (.done none) tailCache := hp
    injection hp with hp
    exact absurd hp hg

omit [Elem T] hpow in
theorem Tied.produce (h : Tied c s y log) {mem : Memory Counters Nat (Option T)} {v : View Index Nat} {f : Producer T}
    {headCache : BitVec 64} {y' : State T} {log' : List (Event T)}
    (hlatest : Program.Viewed.latest ⟨mem, Function.update s.view .producer v,
      Function.update s.pc .producer (.producer f headCache)⟩ = spread y')
    (hlog : popped log' = popped log) (head_last : mem.last .head = s.mem.last .head)
    (tail_last : mem.last .tail = (pushed log').length)
    (words : ∀ a j, j ≤ mem.last a → (mem.stores a j).value = BitVec.ofNat 64 j)
    (inv : Inv c y' (pushed log') (popped log') (v (.inl .head)) (s.view .consumer (.inl .tail)))
    (sides : mem.Side (· % c) .tail .head c v (s.view .consumer) ∧ mem.Side (· % c) .head .tail 0 (s.view .consumer) v)
    (refused : ∀ arg, f = .done false arg → (pushed log').length = v (.inl .head) + c) :
    Tied c ⟨mem, Function.update s.view .producer v, Function.update s.pc .producer (.producer f headCache)⟩ y' log' := by
  have hp : Function.update s.view .producer v .producer = v := Function.update_self ..
  have hc : Function.update s.view .producer v .consumer = s.view .consumer := rfl
  refine ⟨hlatest, by rw [hlog, head_last, h.head_last], tail_last, words, ?_, ?_, ?_, fun arg cache hf => ?_,
    fun cache hg => ?_⟩
  · simp only [hp, hc]
    exact inv
  · simp only [hp, hc]
    exact sides.1
  · simp only [hp, hc]
    exact sides.2
  · simp only [Function.update_self] at hf
    injection hf with hf
    simp only [refused arg hf, hp]
  · rw [hlog]
    exact h.missed cache hg

omit [Elem T] hpow in
theorem Tied.consume (h : Tied c s y log) {mem : Memory Counters Nat (Option T)} {w : View Index Nat} {g : Consumer T}
    {tailCache : BitVec 64} {y' : State T} {log' : List (Event T)}
    (hlatest : Program.Viewed.latest ⟨mem, Function.update s.view .consumer w,
      Function.update s.pc .consumer (.consumer g tailCache)⟩ = spread y')
    (hlog : pushed log' = pushed log) (tail_last : mem.last .tail = s.mem.last .tail)
    (head_last : mem.last .head = (popped log').length)
    (words : ∀ a j, j ≤ mem.last a → (mem.stores a j).value = BitVec.ofNat 64 j)
    (inv : Inv c y' (pushed log') (popped log') (s.view .producer (.inl .head)) (w (.inl .tail)))
    (sides : mem.Side (· % c) .head .tail 0 w (s.view .producer) ∧ mem.Side (· % c) .tail .head c (s.view .producer) w)
    (missed : g = .done none → (popped log').length = w (.inl .tail)) :
    Tied c ⟨mem, Function.update s.view .consumer w, Function.update s.pc .consumer (.consumer g tailCache)⟩ y' log' := by
  have hp : Function.update s.view .consumer w .producer = s.view .producer := rfl
  have hc : Function.update s.view .consumer w .consumer = w := Function.update_self ..
  refine ⟨hlatest, head_last, by rw [hlog, tail_last, h.tail_last], words, ?_, ?_, ?_, fun arg cache hf => ?_,
    fun cache hg => ?_⟩
  · simp only [hp, hc]
    exact inv
  · simp only [hp, hc]
    exact sides.2
  · simp only [hp, hc]
    exact sides.1
  · rw [hlog]
    exact h.refused arg cache hf
  · simp only [Function.update_self] at hg
    injection hg with hg
    simp only [missed hg, hc]

omit [Elem T] hpow in
theorem Tied.latest_producer (h : Tied c s y log) (v : View Index Nat) (f : Producer T) (headCache : BitVec 64) :
    Program.Viewed.latest ⟨s.mem, Function.update s.view .producer v, Function.update s.pc .producer (.producer f headCache)⟩ =
      spread { y with queue := { y.queue with headCache := headCache }, producer := f } := by
  show Program.Interleaved.mk s.mem.latest (Function.update s.latest.pc .producer (.producer f headCache)) = _
  rw [h.latest, spread_producer, show s.mem.latest = (spread y).mem from congrArg Program.Interleaved.mem h.latest]
  rfl

omit [Elem T] hpow in
theorem Tied.latest_consumer (h : Tied c s y log) (w : View Index Nat) (g : Consumer T) (tailCache : BitVec 64) :
    Program.Viewed.latest ⟨s.mem, Function.update s.view .consumer w, Function.update s.pc .consumer (.consumer g tailCache)⟩ =
      spread { y with queue := { y.queue with tailCache := tailCache }, consumer := g } := by
  show Program.Interleaved.mk s.mem.latest (Function.update s.latest.pc .consumer (.consumer g tailCache)) = _
  rw [h.latest, spread_consumer, show s.mem.latest = (spread y).mem from congrArg Program.Interleaved.mem h.latest]
  rfl

omit [Elem T] hpow in
theorem Tied.words_append (h : Tied c s y log) {a : Index} {x : BitVec 64} (hx : x = BitVec.ofNat 64 (s.mem.last a + 1))
    (w : View Index Nat) : ∀ b j, j ≤ (s.mem.append a x w).last b →
      ((s.mem.append a x w).stores b j).value = BitVec.ofNat 64 j := by
  intro b j hj
  by_cases hold : j ≤ s.mem.last b
  · rw [Memory.append_stores_old _ _ _ _ hold]
    exact h.words b j hold
  · by_cases hb : b = a
    · subst hb
      rw [Memory.append_last] at hj
      obtain rfl : j = s.mem.last b + 1 := by omega
      rw [Memory.append_stores]
      exact hx
    · rw [Memory.append_last_ne _ _ _ _ hb] at hj
      exact absurd hj hold

omit [Elem T] in
theorem Tied.reads_head (h : Tied capacity.toNat s y log) (hwf : s.Wf) {arg : T} {tail : BitVec 64}
    (hf : y.producer = .loadHead arg tail) (h1 : s.view .producer (.inl .head) ≤ i) (h2 : i ≤ s.mem.last .head) :
    ∃ y', Tied capacity.toNat ⟨s.mem, Function.update s.view .producer (s.mem.loaded (s.view .producer) true .head i),
      Function.update s.pc .producer
        (if tail + 1 - (s.mem.stores .head i).value > capacity then .producer (.done false arg) (s.mem.stores .head i).value
        else .producer (.construct arg tail) (s.mem.stores .head i).value)⟩ y' log := by
  have hok := h.inv.producer
  have hcache := h.inv.cache_le
  have htail := h.inv.tail_le
  have hbound := h.inv.bound
  have hi : i ≤ (popped log).length := h.head_last ▸ h2
  have hself := Memory.loaded_self hwf.mem h1 h2 true
  have hsides := h.producer.acquires h.consumer hwf.mem (hwf.le .producer) (fun k => Nat.add_mod_right k _) h1 h2
  rw [hf] at hok
  obtain rfl : tail = BitVec.ofNat 64 (pushed log).length := hok
  have hfull := full_iff hpow (show i ≤ (pushed log).length by omega) (by omega)
  have hstep : ∀ g, built g = [] → ProducerOk capacity.toNat y.queue.storage (pushed log).length i g →
      (∀ arg, g = .done false arg → (pushed log).length = i + capacity.toNat) → _ := fun g hb hg hr =>
    h.produce (h.latest_producer (s.mem.loaded (s.view .producer) true .head i) g (BitVec.ofNat 64 i)) rfl rfl h.tail_last
      h.words (hself.symm ▸ h.inv.sees_head h1 hi (by rw [hf]; rfl) hb hg) hsides (hself.symm ▸ hr)
  rw [h.words .head i h2]
  by_cases hroom : BitVec.ofNat 64 (pushed log).length + 1 - BitVec.ofNat 64 i > capacity
  · rw [if_pos hroom]
    exact ⟨_, hstep _ rfl trivial fun _ _ => hfull.mp hroom⟩
  · rw [if_neg hroom]
    rw [hfull] at hroom
    exact ⟨_, hstep _ rfl ⟨rfl, by omega⟩ nofun⟩

omit [Elem T] in
theorem Tied.reads_tail (h : Tied capacity.toNat s y log) (hwf : s.Wf) {head : BitVec 64}
    (hg : y.consumer = .loadTail head) (h1 : s.view .consumer (.inl .tail) ≤ i) (h2 : i ≤ s.mem.last .tail) :
    ∃ y', Tied capacity.toNat ⟨s.mem, Function.update s.view .consumer (s.mem.loaded (s.view .consumer) true .tail i),
      Function.update s.pc .consumer
        (if (s.mem.stores .tail i).value = head then .consumer (.done none) (s.mem.stores .tail i).value
        else .consumer (.moveOut head) (s.mem.stores .tail i).value)⟩ y' log := by
  have hok := h.inv.consumer
  have hle := h.inv.head_le
  have hcache := h.inv.cache_le
  have hbound := h.inv.bound
  have hi : i ≤ (pushed log).length := h.tail_last ▸ h2
  have hself := Memory.loaded_self hwf.mem h1 h2 true
  have hsides := h.consumer.acquires h.producer hwf.mem (hwf.le .consumer) (fun k => rfl) h1 h2
  rw [hg] at hok
  obtain rfl : head = BitVec.ofNat 64 (popped log).length := hok
  have hempty := empty_iff hpow (show (popped log).length ≤ i by omega) (by omega)
  have hstep : ∀ f, inHand f = [] → ConsumerOk capacity.toNat y.queue.storage (popped log).length i f →
      (f = .done none → (popped log).length = i) → _ := fun f hb hf hm =>
    h.consume (h.latest_consumer (s.mem.loaded (s.view .consumer) true .tail i) f (BitVec.ofNat 64 i)) rfl rfl h.head_last
      h.words (hself.symm ▸ h.inv.sees_tail h1 hi (by rw [hg]; rfl) hb hf) hsides (hself.symm ▸ hm)
  rw [h.words .tail i h2]
  by_cases hmiss : BitVec.ofNat 64 i = BitVec.ofNat 64 (popped log).length
  · rw [if_pos hmiss]
    exact ⟨_, hstep _ rfl trivial fun _ => (hempty.mp hmiss).symm⟩
  · rw [if_neg hmiss]
    rw [hempty] at hmiss
    exact ⟨_, hstep _ rfl ⟨rfl, by omega⟩ nofun⟩

theorem Tied.producer_step (h : Tied capacity.toNat s y log) (hwf : s.Wf) {x : Action Counters Nat (Option T) (Local T)}
    {mem : Memory Counters Nat (Option T)} {v : View Index Nat} {f : Local T}
    (hact : (program T capacity throwing).act .producer throws (s.pc .producer) = some x)
    (hr : s.mem.Runs (s.view .producer) i x mem v f) :
    ∃ y', Tied capacity.toNat ⟨mem, Function.update s.view .producer v, Function.update s.pc .producer f⟩ y'
      (log ++ emit s.latest (.move .producer throws)) := by
  have hx : access capacity throws (s.pc .producer) = some x := by
    simp only [program] at hact
    split at hact
    · cases hact
    · exact hact
  have hexact := fun (hrun : s.mem.latest.run x = (mem.latest, f)) g k =>
    h.exactly hpow (Program.Viewed.move_latest (v := v) hact hrun) (f := g) (g := k)
  have hpp := h.pc_producer
  have hpc := h.pc_consumer
  have hle := h.inv.head_le
  have hbound := h.inv.bound
  have hok := h.inv.producer
  have hsides : ∀ tail, tail = BitVec.ofNat 64 (pushed log).length →
      (pushed log).length < s.view .producer (.inl .head) + capacity.toNat → ∀ z, _ := fun tail ht hlt z =>
    h.producer_touches hlt z ((congrArg (index capacity) ht).trans (index_word hpow _))
  have hemit : emit s.latest (.move .producer throws) = if throws then [] else published (s.pc .producer) := by
    cases throws <;> rfl
  rw [hemit] at hexact ⊢
  rw [hpp] at hx hexact ⊢
  obtain ⟨queue, producer, consumer⟩ := y
  cases throws with
  | true =>
    cases producer with
    | construct arg tail =>
      cases hx
      cases hr with
      | access =>
        obtain ⟨y', hlatest, hinv⟩ := hexact rfl .threw consumer (by simp) hpc
        refine ⟨y', h.produce hlatest (by simp) rfl ?_ h.words hinv (hsides tail hok.1 hok.2 _) nofun⟩
        simpa using h.tail_last
    | _ => cases hx
  | false =>
    cases producer with
    | loadTail arg =>
      cases hx
      cases hr with
      | load h1 h2 =>
        obtain ⟨rfl, hv⟩ := h.producer.reads_own h1 h2
        obtain ⟨g, hg, hne⟩ : ∃ g, (if (s.mem.stores .tail (s.mem.last .tail)).value + 1 - queue.headCache > capacity then
            Local.producer (.loadHead arg (s.mem.stores .tail (s.mem.last .tail)).value) queue.headCache
          else .producer (.construct arg (s.mem.stores .tail (s.mem.last .tail)).value) queue.headCache) =
            .producer g queue.headCache ∧ ∀ arg, g ≠ .done false arg := by
          split <;> exact ⟨_, rfl, nofun⟩
        dsimp only at hexact ⊢
        rw [hg, hv] at hexact ⊢
        obtain ⟨y', hlatest, hinv⟩ := hexact (Prod.ext rfl hg) g consumer (by simp) hpc
        refine ⟨y', h.produce hlatest (by simp [published]) rfl ?_ h.words hinv ⟨h.producer, h.consumer⟩
          fun arg hf => absurd hf (hne arg)⟩
        simpa [published] using h.tail_last
    | loadHead arg tail =>
      cases hx
      cases hr with
      | load h1 h2 =>
        rw [show published (.producer (.loadHead arg tail) queue.headCache) = [] from rfl, ite_self, List.append_nil]
        exact h.reads_head hpow hwf rfl h1 h2
    | construct arg tail =>
      cases hx
      cases hr with
      | access =>
        obtain ⟨y', hlatest, hinv⟩ := hexact rfl (.storeTail arg tail) consumer (by simp) hpc
        refine ⟨y', h.produce hlatest (by simp [published]) rfl ?_ h.words hinv (hsides tail hok.1 hok.2 _) nofun⟩
        simpa [published] using h.tail_last
    | storeTail value tail =>
      cases hx
      cases hr with
      | store =>
        obtain ⟨y', hlatest, hinv⟩ := hexact (by rw [Memory.append_latest]; rfl) (.done true (Elem.moved value)) consumer (by simp) hpc
        have hstores := h.producer.stores h.consumer nofun (tail + 1) (hwf.le .producer) (by rw [h.tail_last]; exact hok.2.1)
        have htail : tail + 1 = BitVec.ofNat 64 (s.mem.last .tail + 1) := by
          rw [hok.1, h.tail_last]
          exact Counter.plus_word _ 1
        refine ⟨y', h.produce hlatest ?_ (Memory.append_last_ne _ _ _ _ nofun) ?_ (h.words_append htail _) ?_ hstores nofun⟩
        · simp [published, popped]
        · rw [Memory.append_last, h.tail_last]
          simp [published, pushed]
        · rw [Memory.stored_ne (by nofun)]
          exact hinv
    | _ => cases hx

theorem Tied.consumer_step (h : Tied capacity.toNat s y log) (hwf : s.Wf) {x : Action Counters Nat (Option T) (Local T)}
    {mem : Memory Counters Nat (Option T)} {w : View Index Nat} {f : Local T}
    (hact : (program T capacity throwing).act .consumer throws (s.pc .consumer) = some x)
    (hr : s.mem.Runs (s.view .consumer) i x mem w f) :
    ∃ y', Tied capacity.toNat ⟨mem, Function.update s.view .consumer w, Function.update s.pc .consumer f⟩ y'
      (log ++ emit s.latest (.move .consumer throws)) := by
  have hx : access capacity throws (s.pc .consumer) = some x := by
    simp only [program] at hact
    split at hact
    · cases hact
    · exact hact
  have hexact := fun (hrun : s.mem.latest.run x = (mem.latest, f)) g k =>
    h.exactly hpow (Program.Viewed.move_latest (v := w) hact hrun) (f := g) (g := k)
  have hpp := h.pc_producer
  have hpc := h.pc_consumer
  have hok := h.inv.consumer
  have hsides : ∀ head, head = BitVec.ofNat 64 (popped log).length →
      (popped log).length < s.view .consumer (.inl .tail) → ∀ z, _ := fun head hh hlt z =>
    h.consumer_touches hlt z ((congrArg (index capacity) hh).trans (index_word hpow _))
  have hemit : emit s.latest (.move .consumer throws) = if throws then [] else published (s.pc .consumer) := by
    cases throws <;> rfl
  rw [hemit] at hexact ⊢
  rw [hpc] at hx hexact ⊢
  obtain ⟨queue, producer, consumer⟩ := y
  cases throws with
  | true =>
    cases consumer with
    | moveOut head =>
      cases hx
      cases hr with
      | access =>
        obtain ⟨y', hlatest, hinv⟩ := hexact rfl producer .threw hpp (by simp)
        refine ⟨y', h.consume hlatest (by simp) rfl ?_ h.words hinv (hsides head hok.1 hok.2 _) nofun⟩
        simpa using h.head_last
    | _ => cases hx
  | false =>
    cases consumer with
    | loadHead =>
      cases hx
      cases hr with
      | load h1 h2 =>
        obtain ⟨rfl, hw⟩ := h.consumer.reads_own h1 h2
        obtain ⟨g, hg, hne⟩ : ∃ g, (if queue.tailCache = (s.mem.stores .head (s.mem.last .head)).value then
            Local.consumer (.loadTail (s.mem.stores .head (s.mem.last .head)).value) queue.tailCache
          else .consumer (.moveOut (s.mem.stores .head (s.mem.last .head)).value) queue.tailCache) =
            .consumer g queue.tailCache ∧ g ≠ .done none := by
          split <;> exact ⟨_, rfl, nofun⟩
        dsimp only at hexact ⊢
        rw [hg, hw] at hexact ⊢
        obtain ⟨y', hlatest, hinv⟩ := hexact (Prod.ext rfl hg) producer g hpp (by simp)
        refine ⟨y', h.consume hlatest (by simp [published]) rfl ?_ h.words hinv ⟨h.consumer, h.producer⟩
          fun hf => absurd hf hne⟩
        simpa [published] using h.head_last
    | loadTail head =>
      cases hx
      cases hr with
      | load h1 h2 =>
        rw [show published (.consumer (.loadTail head) queue.tailCache) = [] from rfl, ite_self, List.append_nil]
        exact h.reads_tail hpow hwf rfl h1 h2
    | moveOut head =>
      cases hx
      cases hr with
      | access =>
        obtain ⟨y', hlatest, hinv⟩ := hexact rfl producer (.destroy head ((s.mem.plain (index capacity head)).getD default))
          hpp (by simp)
        refine ⟨y', h.consume hlatest (by simp [published]) rfl ?_ h.words hinv (hsides head hok.1 hok.2 _) nofun⟩
        simpa [published] using h.head_last
    | destroy head out =>
      cases hx
      cases hr with
      | access =>
        obtain ⟨y', hlatest, hinv⟩ := hexact rfl producer (.storeHead head out) hpp (by simp)
        refine ⟨y', h.consume hlatest (by simp [published]) rfl ?_ h.words hinv (hsides head hok.1 hok.2 _) nofun⟩
        simpa [published] using h.head_last
    | storeHead head out =>
      cases hx
      cases hr with
      | store =>
        obtain ⟨y', hlatest, hinv⟩ := hexact (by rw [Memory.append_latest]; rfl) producer (.done (some out)) hpp (by simp)
        have hstores := h.consumer.stores h.producer nofun (head + 1) (hwf.le .consumer) (by rw [h.head_last]; exact hok.2.1)
        have hhead : head + 1 = BitVec.ofNat 64 (s.mem.last .head + 1) := by
          rw [hok.1, h.head_last]
          exact Counter.plus_word _ 1
        refine ⟨y', h.consume hlatest ?_ (Memory.append_last_ne _ _ _ _ nofun) ?_ (h.words_append hhead _) ?_ hstores nofun⟩
        · simp [published, pushed]
        · rw [Memory.append_last, h.head_last]
          simp [published, popped]
        · rw [Memory.stored_ne (by nofun)]
          exact hinv
    | _ => cases hx

/-! ## Runs -/

omit [Elem T] in
/-- The slot of the tail is empty when an object is to be built there. -/
theorem Inv.constructs {accepted returned : List T} {headCache tailCache : Nat}
    (h : Inv capacity.toNat y accepted returned headCache tailCache) {arg : T} {tail : BitVec 64}
    (hp : y.producer = .construct arg tail) : y.queue.storage (index capacity tail) = none := by
  have hle := h.head_le
  have hok := h.producer
  have hfree := h.free accepted.length
  rw [hp] at hok hfree
  rw [hok.1, index_word hpow]
  exact hfree (Nat.le_refl _) (by have := hok.2; omega)

omit [Elem T] in
/-- The slot of the head holds the next item when it is to be moved out. -/
theorem Inv.moves {accepted returned : List T} {headCache tailCache : Nat}
    (h : Inv capacity.toNat y accepted returned headCache tailCache) {head : BitVec 64} (hc : y.consumer = .moveOut head) :
    ∃ value, y.queue.storage (index capacity head) = some value ∧ accepted[returned.length]? = some value := by
  have hok := h.consumer
  have hlive := h.live returned.length
  rw [hc] at hok hlive
  have hlt : returned.length < accepted.length := Nat.lt_of_lt_of_le hok.2 h.tail_le
  have hlen : (returned ++ []).length ≤ returned.length := by rw [List.append_nil]
  refine ⟨accepted[returned.length], ?_, List.getElem?_eq_getElem hlt⟩
  rw [hok.1, index_word hpow, hlive hlen hlt, List.getElem?_eq_getElem hlt]

theorem tied_reachable (hr : ((program T capacity throwing).viewed.logged trail).Reachable (s, log)) :
    ∃ y, Tied capacity.toNat s y log := by
  refine hr.invariant (I := fun x => ∃ y, Tied capacity.toNat x.1 y x.2) ?_ ?_
  · refine ⟨⟨SpscBoundedQueue.new T, .idle, .idle⟩, ?_, rfl, rfl, fun a j hj => ?_, ?_, ⟨rfl, fun _ _ _ => Nat.le_refl 0, ?_⟩,
      ⟨rfl, fun _ _ _ => Nat.le_refl 0, ?_⟩, nofun, nofun⟩
    · refine congrArg₂ Program.Interleaved.mk (congrArg₂ Shared.mk ?_ rfl) ?_
      · funext a
        cases a <;> rfl
      · funext t
        cases t <;> rfl
    · obtain rfl : j = 0 := Nat.le_zero.mp hj
      rfl
    · exact ⟨⟨rfl, rfl, rfl, rfl⟩, Nat.le_refl 0, Nat.le_refl 0, Nat.le_refl 0, Nat.zero_le _, List.prefix_refl _,
        fun k _ hk => absurd hk (Nat.not_lt_zero k), fun _ _ _ => rfl, trivial, trivial⟩
    · exact fun k _ hk => absurd hk (Nat.not_lt_zero k)
    · exact fun k _ hk => absurd hk (Nat.not_lt_zero k)
  · intro x a x' hx hI hs
    obtain ⟨y, h⟩ := hI
    obtain ⟨h1, h2⟩ := Machine.logged_step.mp hs
    have hwf := Program.Viewed.wf_reachable (Machine.logged_reachable hx)
    rw [h2]
    obtain ⟨s', log'⟩ := x'
    cases Program.step_spec h1 with
    | env he =>
      obtain ⟨y', h'⟩ := h.env_step hpow he
      exact ⟨y', (List.append_nil x.2).symm ▸ h'⟩
    | @move t m i z mem v f hact hrun =>
      cases t with
      | producer => exact h.producer_step hpow hwf hact hrun
      | consumer => exact h.consumer_step hpow hwf hact hrun

omit [Elem T] in
/-- When both calls have returned, `drain()` destroys what was not popped, and leaves no object. -/
theorem Inv.drains {accepted returned : List T} {headCache tailCache : Nat}
    (h : Inv capacity.toNat y accepted returned headCache tailCache) (hp : y.producer = .idle) (hc : y.consumer = .idle) :
    ∃ q visited, (∀ rounds, capacity.toNat < rounds → y.queue.drain capacity rounds = some (q, visited)) ∧
      visited.map Prod.snd = (accepted.drop returned.length).map some ∧ ∀ k, k < capacity.toNat → q.storage k = none := by
  obtain ⟨hsize, hlen, hroom⟩ := h.size_eq hpow
  have hslots := h.slots_eq hpow
  rw [hc, show inHand (.idle : Consumer T) = [] from rfl, List.append_nil, List.length_nil, List.drop_zero] at hslots
  have hcount : (accepted.drop returned.length).length = (y.queue.tail - y.queue.head).toNat := by
    rw [List.length_drop, hsize]
  have htail : y.queue.head + BitVec.ofNat 64 (y.queue.tail - y.queue.head).toNat = y.queue.tail := by
    rw [BitVec.ofNat_toNat, BitVec.setWidth_eq, BitVec.add_comm, BitVec.sub_add_cancel]
  obtain ⟨q, visited, h1, -, h3, h4, h5, -⟩ := drain_loop hpow (accepted.drop returned.length) y.queue y.queue.head
    (by omega) (by
      intro i hi
      have hget := congrArg (·[i]?) hslots
      simp only [slots, List.getElem?_map] at hget
      rw [List.getElem?_range (by omega), List.getElem?_eq_getElem hi] at hget
      exact Option.some.inj hget)
  rw [hcount, htail] at h1
  rw [hcount] at h4
  refine ⟨q, visited, fun rounds hr => h1 rounds (by omega), h3, fun k hk => ?_⟩
  obtain ⟨n, hn1, hn2, hn3⟩ := Counter.exists_window (Nat.lt_of_le_of_lt (Nat.zero_le k) hk) returned.length k
  rw [Nat.mod_eq_of_lt hk] at hn3
  by_cases hlive : n < accepted.length
  · obtain ⟨m, rfl⟩ := Nat.exists_eq_add_of_le hn1
    have hgone := h4 m (by omega)
    rw [h.counts.head, ← BitVec.ofNat_add, ptr_word hpow, hn3] at hgone
    exact hgone
  · have hfree := h.free n (by rw [hp]; exact Nat.le_of_not_lt hlive) hn2
    rw [hn3] at hfree
    exact h5 k hfree

theorem Tied.raceFree (h : Tied capacity.toNat s y log) : s.RaceFree (program T capacity throwing) := by
  intro t throws x hact
  have hx : access capacity throws (s.pc t) = some x := by
    simp only [program] at hact
    split at hact
    · cases hact
    · exact hact
  have hp := h.inv.producer
  have hc := h.inv.consumer
  have hlast := h.head_last
  have htail := h.tail_last
  obtain ⟨queue, producer, consumer⟩ := y
  have owned : ∀ tail, tail = BitVec.ofNat 64 (pushed log).length →
      (pushed log).length < s.view .producer (.inl .head) + capacity.toNat →
      s.mem.Knows (s.view .producer) (index capacity tail) := by
    intro tail ht hlt
    rw [ht, index_word hpow]
    exact h.producer.knows _ (by omega) hlt
  have taken : ∀ head, head = BitVec.ofNat 64 (popped log).length →
      (popped log).length < s.view .consumer (.inl .tail) → s.mem.Knows (s.view .consumer) (index capacity head) := by
    intro head hh hlt
    rw [hh, index_word hpow]
    exact h.consumer.knows _ (by omega) hlt
  cases t with
  | producer =>
    rw [h.pc_producer] at hx
    cases throws with
    | true =>
      cases producer with
      | construct arg tail => cases hx; exact owned tail hp.1 hp.2
      | _ => cases hx
    | false =>
      cases producer with
      | construct arg tail => cases hx; exact owned tail hp.1 hp.2
      | storeTail value tail => cases hx; exact Nat.le_of_eq h.producer.seen.symm
      | loadTail arg => cases hx; trivial
      | loadHead arg tail => cases hx; trivial
      | _ => cases hx
  | consumer =>
    rw [h.pc_consumer] at hx
    cases throws with
    | true =>
      cases consumer with
      | moveOut head => cases hx; exact taken head hc.1 hc.2
      | _ => cases hx
    | false =>
      cases consumer with
      | moveOut head => cases hx; exact taken head hc.1 hc.2
      | destroy head out => cases hx; exact taken head hc.1 hc.2
      | storeHead head out => cases hx; exact Nat.le_of_eq h.consumer.seen.symm
      | loadHead => cases hx; trivial
      | loadTail head => cases hx; trivial
      | _ => cases hx

end

end Spsc

open Spsc

variable {T : Type} [Elem T] {fuel : Nat} {requested capacity : BitVec 64}

/-- **The memory orders of `SpscBoundedQueue` are enough.** On a memory where a
load may answer with any store its thread has not seen past, no access races;
what is popped is what was pushed, in order; an object is built in an empty slot
and the next item is moved out of the slot it was built in; and a push is refused,
or a pop misses, only when the queue is full, or empty, as far as its thread has seen. -/
theorem spsc_release_acquire (hcap : normalizeCapacity fuel requested = some capacity) (throwing : Bool)
    {s : Program.Viewed Party Counters Nat (Option T) (Local T)} {log : List (Event T)}
    (hr : ((program T capacity throwing).viewed.logged trail).Reachable (s, log)) :
    s.RaceFree (program T capacity throwing) ∧
    popped log <+: pushed log ∧
    (∀ arg tail headCache, s.pc .producer = .producer (.construct arg tail) headCache →
      s.mem.plain (index capacity tail) = none) ∧
    (∀ head tailCache, s.pc .consumer = .consumer (.moveOut head) tailCache → ∃ value,
      s.mem.plain (index capacity head) = some value ∧ (pushed log)[(popped log).length]? = some value) ∧
    (∀ arg headCache, s.pc .producer = .producer (.done false arg) headCache →
      (pushed log).length = s.view .producer (.inl .head) + capacity.toNat) ∧
    ∀ tailCache, s.pc .consumer = .consumer (.done none) tailCache →
      (popped log).length = s.view .consumer (.inl .tail) := by
  have hpow := normalizeCapacity_spec (by decide) hcap
  obtain ⟨y, h⟩ := tied_reachable hpow hr
  have hplain : s.mem.plain = y.queue.storage := congrArg (fun z => z.mem.plain) h.latest
  refine ⟨h.raceFree hpow, (List.prefix_append ..).trans h.inv.order, fun arg tail headCache hp => ?_,
    fun head tailCache hc => ?_, h.refused, h.missed⟩
  · rw [h.pc_producer] at hp
    injection hp with hp
    rw [hplain]
    exact h.inv.constructs hpow hp
  · rw [h.pc_consumer] at hc
    injection hc with hc
    rw [hplain]
    exact h.inv.moves hpow hc

def staleHead : List (Program.Label Party (Spsc.Env Nat) (Bool × Nat)) :=
  [.env .producer (.enter (.tryPush 7)), .move .producer (false, 0), .move .producer (false, 0), .move .producer (false, 0),
    .env .producer .leave, .env .producer (.enter (.tryPush 8)), .move .producer (false, 1), .move .producer (false, 0),
    .move .producer (false, 0), .env .producer .leave,
    .env .consumer (.enter .tryPop), .move .consumer (false, 0), .move .consumer (false, 1), .move .consumer (false, 0),
    .move .consumer (false, 0), .move .consumer (false, 0), .env .consumer .leave,
    .env .producer (.enter (.tryPush 9)), .move .producer (false, 2), .move .producer (false, 0)]

theorem spsc_release_acquire_stale : ∃ x, ((program Nat 2#64 false).viewed.logged trail).exec staleHead = some x ∧
    popped x.2 = [7] ∧ x.1.pc .producer = .producer (.done false 9) 0 ∧
    (pushed x.2).length = x.1.view .producer (.inl .head) + 2 := by
  have hrun : (((program Nat 2#64 false).viewed.logged trail).exec staleHead).map (fun x => (popped x.2, x.1.pc .producer)) =
      some ([7], .producer (.done false 9) 0) := by decide
  obtain ⟨x, hx, he⟩ := Option.map_eq_some_iff.mp hrun
  simp only [Prod.mk.injEq] at he
  have hcap : normalizeCapacity 3 2#64 = some 2#64 := by decide
  obtain ⟨-, -, -, -, hrefused, -⟩ := spsc_release_acquire hcap false (Machine.exec_reachable _ hx)
  exact ⟨x, hx, he.1, he.2, hrefused 9 0 he.2⟩

/-- **The destructor after the threads have been joined.** A thread that has
seen what both saw when their calls had returned knows every slot, its relaxed
loads of `head_` and `tail_` answer with the last stores, and its `drain()`
destroys the items that were not popped and leaves no object behind. -/
theorem spsc_drain_joined (hcap : normalizeCapacity fuel requested = some capacity) (throwing : Bool)
    {s : Program.Viewed Party Counters Nat (Option T) (Local T)} {log : List (Event T)}
    (hr : ((program T capacity throwing).viewed.logged trail).Reachable (s, log)) {headCache tailCache : BitVec 64}
    (hp : s.pc .producer = .producer .idle headCache) (hc : s.pc .consumer = .consumer .idle tailCache) {w : View Index Nat}
    (hw : ∀ t, s.view t ≤ w) {i j : Nat} (hi : w (.inl .head) ≤ i ∧ i ≤ s.mem.last .head)
    (hj : w (.inl .tail) ≤ j ∧ j ≤ s.mem.last .tail) :
    (∀ k, s.mem.Knows w k) ∧ (i = s.mem.last .head ∧ j = s.mem.last .tail) ∧
    ∃ q visited, (∀ rounds, capacity.toNat < rounds → SpscBoundedQueue.drain capacity rounds
        ⟨s.mem.plain, (s.mem.stores .head i).value, (s.mem.stores .tail j).value, headCache, tailCache⟩ = some (q, visited)) ∧
      visited.map Prod.snd = ((pushed log).drop (popped log).length).map some ∧
      ∀ k, k < capacity.toNat → q.storage k = none := by
  have hpow := normalizeCapacity_spec (by decide) hcap
  obtain ⟨y, h⟩ := tied_reachable hpow hr
  have hall := Program.Viewed.joined (Machine.logged_reachable hr) hw
  have hhead : s.mem.last .head ≤ w (.inl .head) := hall (.inl .head)
  have htail : s.mem.last .tail ≤ w (.inl .tail) := hall (.inl .tail)
  obtain rfl : i = s.mem.last .head := by omega
  obtain rfl : j = s.mem.last .tail := by omega
  refine ⟨fun k => hall (.inr k), ⟨rfl, rfl⟩, ?_⟩
  have hpp := h.pc_producer
  have hpc := h.pc_consumer
  rw [hp] at hpp
  rw [hc] at hpc
  injection hpp with hidle hheadCache
  injection hpc with hidle' htailCache
  have hqueue : y.queue = ⟨s.mem.plain, (s.mem.stores .head (s.mem.last .head)).value,
      (s.mem.stores .tail (s.mem.last .tail)).value, headCache, tailCache⟩ := by
    have hplain : s.mem.plain = y.queue.storage := congrArg (fun z => z.mem.plain) h.latest
    have hhead : (s.mem.stores .head (s.mem.last .head)).value = y.queue.head :=
      congrArg (fun z => z.mem.value .head) h.latest
    have htail : (s.mem.stores .tail (s.mem.last .tail)).value = y.queue.tail :=
      congrArg (fun z => z.mem.value .tail) h.latest
    rw [hplain, hhead, htail, hheadCache, htailCache]
  rw [← hqueue]
  exact h.inv.drains hpow hidle.symm hidle'.symm

def pushThenJoin : List (Program.Label Party (Spsc.Env Nat) (Bool × Nat)) :=
  [.env .producer (.enter (.tryPush 7)), .move .producer (false, 0), .move .producer (false, 0), .move .producer (false, 0),
    .env .producer .leave]

theorem spsc_drain_joined_one : ∃ x, ((program Nat 2#64 false).viewed.logged trail).exec pushThenJoin = some x ∧
    ∃ q visited, SpscBoundedQueue.drain 2#64 3
        ⟨x.1.mem.plain, (x.1.mem.stores .head 0).value, (x.1.mem.stores .tail 1).value, 0, 0⟩ = some (q, visited) ∧
      visited.map Prod.snd = [some 7] := by
  have hrun : (((program Nat 2#64 false).viewed.logged trail).exec pushThenJoin).map (fun x => (pushed x.2, popped x.2,
      x.1.pc .producer, x.1.pc .consumer, x.1.mem.last .head, x.1.mem.last .tail)) =
      some ([7], [], .producer .idle 0, .consumer .idle 0, 0, 1) := by decide
  obtain ⟨x, hx, he⟩ := Option.map_eq_some_iff.mp hrun
  simp only [Prod.mk.injEq] at he
  obtain ⟨h1, h2, h3, h4, h5, h6⟩ := he
  have hcap : normalizeCapacity 3 2#64 = some 2#64 := by decide
  have hr := Machine.exec_reachable _ hx
  obtain ⟨-, -, q, visited, hdrain, hvisited, -⟩ := spsc_drain_joined (w := x.1.mem.top) hcap false hr h3 h4
    (Program.Viewed.wf_reachable (Machine.logged_reachable hr)).le (i := 0) (j := 1) ⟨Nat.le_of_eq h5, Nat.zero_le _⟩
    ⟨Nat.le_of_eq h6, Nat.le_of_eq h6.symm⟩
  exact ⟨x, hx, q, visited, hdrain 3 (by decide), by rw [hvisited, h1, h2]; rfl⟩

end Yutil
