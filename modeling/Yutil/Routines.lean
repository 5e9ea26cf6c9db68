import Yutil.Broadcasts
import Yutil.Fair
import Yutil.Immediate
import Mathlib.Data.Prod.Lex

/-!
# Programs over an object

The threads of a program call an object and keep variables of their own. Over
a monitor a program does what it does over the object that the monitor
realizes: it comes to no other states, and where it ends on every fair schedule
over the object, and the object can always answer it, it does so over the
monitor.
-/

namespace Interleave

/-- Threads with the variables `V`: the next call of a thread, what it does
with the answer, and its steps between the calls. -/
structure Routine (Tid Op R V : Type) where
  start : V
  calls : V → Tid → Option (Op × V)
  takes : V → Tid → R → V
  turns : V → Tid → Option V

structure Running (V Q : Type) where
  vars : V
  object : Q

def Pc.pending {Op Cv R : Type} : Pc Op Cv R → Nat
  | .leaving _ todo _ => todo.length
  | _ => 0

theorem Pc.idle_of_nothing {Op Cv R : Type} {p : Pc Op Cv R} (h : p.doing = .nothing) : p = .idle := by
  cases p with
  | idle => rfl
  | _ => cases h

def Monitor.mover {Tid Op : Type} : Monitor.Label Tid Op → Tid
  | .call t _ | .acquire t _ | .notify t _ | .spurious t | .ret t => t

namespace Routine

inductive Label (Tid : Type)
  | call (t : Tid)
  | own (t : Tid)
  | act (t : Tid)
  | ret (t : Tid)
  deriving DecidableEq, Repr

def Label.thread {Tid : Type} : Label Tid → Tid
  | .call t | .own t | .act t | .ret t => t

inductive Move (Tid : Type)
  | call (t : Tid)
  | own (t : Tid)
  | acquire (t : Tid) (pick : Option Tid)
  | notify (t : Tid) (pick : Option Tid)
  | spurious (t : Tid)
  | ret (t : Tid)
  deriving DecidableEq, Repr

def Move.thread {Tid : Type} : Move Tid → Tid
  | .call t | .own t | .acquire t _ | .notify t _ | .spurious t | .ret t => t

variable {Tid S D Op Cv R V : Type} [DecidableEq Tid]

/-! ## Over the object -/

def step (routine : Routine Tid Op R V) (O : Immediate S Op R) (s : Running V (Immediate.State Tid S Op R)) :
    Label Tid → Option (Running V (Immediate.State Tid S Op R))
  | .call t =>
    (routine.calls s.vars t).bind fun x => (O.step (fun _ _ => true) s.object (.call t x.1)).map fun o => ⟨x.2, o⟩
  | .own t =>
    match s.object.doing t with
    | .nothing => (routine.turns s.vars t).map fun v => { s with vars := v }
    | _ => none
  | .act t => (O.step (fun _ _ => true) s.object (.act t)).map fun o => { s with object := o }
  | .ret t =>
    match s.object.doing t with
    | .returning _ r => (O.step (fun _ _ => true) s.object (.ret t)).map fun o => ⟨routine.takes s.vars t r, o⟩
    | _ => none

def onObject (routine : Routine Tid Op R V) (O : Immediate S Op R) : Machine (Running V (Immediate.State Tid S Op R)) (Label Tid) where
  start := ⟨routine.start, O.start, fun _ => .nothing⟩
  step := routine.step O

inductive Steps (routine : Routine Tid Op R V) (O : Immediate S Op R) (s : Running V (Immediate.State Tid S Op R)) :
    Label Tid → Running V (Immediate.State Tid S Op R) → Prop
  | call {t : Tid} {op : Op} {v : V} : s.object.doing t = .nothing → routine.calls s.vars t = some (op, v) →
      Steps routine O s (.call t) ⟨v, s.object.value, Function.update s.object.doing t (.calling op)⟩
  | own {t : Tid} {v : V} : s.object.doing t = .nothing → routine.turns s.vars t = some v → Steps routine O s (.own t) ⟨v, s.object⟩
  | act {t : Tid} {op : Op} {x : S} {r : R} : s.object.doing t = .calling op → O.answer op s.object.value = some (x, r) →
      Steps routine O s (.act t) ⟨s.vars, x, Function.update s.object.doing t (.returning op r)⟩
  | ret {t : Tid} {op : Op} {r : R} : s.object.doing t = .returning op r →
      Steps routine O s (.ret t) ⟨routine.takes s.vars t r, s.object.value, Function.update s.object.doing t .nothing⟩

section
variable {routine : Routine Tid Op R V} {O : Immediate S Op R} {s s' : Running V (Immediate.State Tid S Op R)} {a : Label Tid}

theorem step_iff : routine.step O s a = some s' ↔ routine.Steps O s a s' := by
  constructor
  · intro h
    cases a with
    | call t =>
      obtain ⟨⟨op, v⟩, hcalls, h⟩ := Option.bind_eq_some_iff.mp h
      obtain ⟨o, ho, rfl⟩ := Option.map_eq_some_iff.mp h
      have hsteps := Immediate.step_spec ho
      generalize O.moments s.object (.call t op) = l at hsteps
      cases hsteps with
      | call hd _ => exact .call hd hcalls
    | own t =>
      simp only [step] at h
      split at h
      · rename_i hd
        obtain ⟨v, hv, rfl⟩ := Option.map_eq_some_iff.mp h
        exact .own hd hv
      · cases h
    | act t =>
      obtain ⟨o, ho, rfl⟩ := Option.map_eq_some_iff.mp h
      have hsteps := Immediate.step_spec ho
      generalize O.moments s.object (.act t) = l at hsteps
      cases hsteps with
      | act hd ha => exact .act hd ha
    | ret t =>
      simp only [step] at h
      split at h
      · rename_i op r hd
        obtain ⟨o, ho, rfl⟩ := Option.map_eq_some_iff.mp h
        have hsteps := Immediate.step_spec ho
        generalize O.moments s.object (.ret t) = l at hsteps
        cases hsteps with
        | ret hd' => exact .ret hd
      · cases h
  · intro h
    cases h with
    | call hd hcalls => simp [step, hcalls, Immediate.step, hd]
    | own hd hturns => simp [step, hd, hturns]
    | act hd ha => simp [step, Immediate.step, hd, ha]
    | ret hd => simp [step, Immediate.step, hd]

end

/-! ## Over a monitor -/

variable [Fintype Tid] [DecidableEq Cv]

def stepOn (routine : Routine Tid Op R V) (M : Monitor D Op Cv R) (s : Running V (Monitor.State Tid D Op Cv R)) :
    Move Tid → Option (Running V (Monitor.State Tid D Op Cv R))
  | .call t =>
    (routine.calls s.vars t).bind fun x => (M.step (fun _ _ => true) s.object (.call t x.1)).map fun m => ⟨x.2, m⟩
  | .own t =>
    match s.object.pc t with
    | .idle => (routine.turns s.vars t).map fun v => { s with vars := v }
    | _ => none
  | .acquire t pick => (M.step (fun _ _ => true) s.object (.acquire t pick)).map fun m => { s with object := m }
  | .notify t pick => (M.step (fun _ _ => true) s.object (.notify t pick)).map fun m => { s with object := m }
  | .spurious t => (M.step (fun _ _ => true) s.object (.spurious t)).map fun m => { s with object := m }
  | .ret t =>
    match s.object.pc t with
    | .leaving _ _ r => (M.step (fun _ _ => true) s.object (.ret t)).map fun m => ⟨routine.takes s.vars t r, m⟩
    | _ => none

def onMonitor (routine : Routine Tid Op R V) (M : Monitor D Op Cv R) :
    Machine (Running V (Monitor.State Tid D Op Cv R)) (Move Tid) where
  start := ⟨routine.start, M.start, fun _ => .idle⟩
  step := routine.stepOn M

def image (f : D → S) (s : Running V (Monitor.State Tid D Op Cv R)) : Running V (Immediate.State Tid S Op R) :=
  ⟨s.vars, f s.object.data, fun t => (s.object.pc t).doing⟩

variable {routine : Routine Tid Op R V} {M : Monitor D Op Cv R} {O : Immediate S Op R} {I : D → Prop} {f : D → S}
  {s s' : Running V (Monitor.State Tid D Op Cv R)} {a : Move Tid}

/-- A step over the monitor is one over the object, or nothing that the program sees. -/
inductive Seen (routine : Routine Tid Op R V) (O : Immediate S Op R) (f : D → S)
    (s s' : Running V (Monitor.State Tid D Op Cv R)) : Move Tid → Prop
  | steps {a : Move Tid} {b : Label Tid} : b.thread = a.thread → routine.Steps O (image f s) b (image f s') → Seen routine O f s s' a
  | notifies {t : Tid} {pick : Option Tid} : image f s' = image f s →
      (s'.object.pc t).pending < (s.object.pc t).pending → Seen routine O f s s' (.notify t pick)
  | sleeps {t : Tid} {pick : Option Tid} {op : Op} : image f s' = image f s → (s.object.pc t).doing = .calling op →
      O.answer op (f s.object.data) = none → Seen routine O f s s' (.acquire t pick)
  | stirs {t : Tid} {op : Op} {cv : Cv} : image f s' = image f s → s.object.pc t = .asleep op cv →
      Seen routine O f s s' (.spurious t)

omit [DecidableEq Tid] [Fintype Tid] [DecidableEq Cv] in
theorem image_congr (hvars : s'.vars = s.vars) (hd : f s'.object.data = f s.object.data)
    (hall : ∀ u, (s'.object.pc u).doing = (s.object.pc u).doing) : image f s' = image f s := by
  unfold image
  rw [hvars, hd, funext hall]

omit [Fintype Tid] [DecidableEq Cv] in
theorem image_put {v : V} {x : S} {t : Tid} {g : Doing Op R} (hvars : s'.vars = v) (hd : f s'.object.data = x)
    (hall : ∀ u, (s'.object.pc u).doing = Function.update (fun u => (s.object.pc u).doing) t g u) :
    image f s' = ⟨v, x, Function.update (image f s).object.doing t g⟩ := by
  unfold image
  rw [hvars, hd, funext hall]

theorem seen (hM : M.Realizes O I f) (hI : I s.object.data) (hs : routine.stepOn M s a = some s') :
    I s'.object.data ∧ Seen routine O f s s' a := by
  cases a with
  | call t =>
    obtain ⟨⟨op, v⟩, hcalls, h⟩ := Option.bind_eq_some_iff.mp hs
    obtain ⟨m, hm, rfl⟩ := Option.map_eq_some_iff.mp h
    cases (Monitor.step_spec hm).turns with
    | calls hidle hd hall =>
      have himage : image f (⟨v, m⟩ : Running V (Monitor.State Tid D Op Cv R)) = _ := image_put rfl (congrArg f hd) hall
      refine ⟨hd ▸ hI, .steps (b := .call t) rfl ?_⟩
      rw [himage]
      exact .call hidle hcalls
  | own t =>
    simp only [stepOn] at hs
    split at hs
    · rename_i hidle
      obtain ⟨v, hv, rfl⟩ := Option.map_eq_some_iff.mp hs
      refine ⟨hI, .steps (b := .own t) rfl (.own ?_ hv)⟩
      show (s.object.pc t).doing = .nothing
      rw [hidle]
      rfl
    · cases hs
  | acquire t pick =>
    obtain ⟨m, hm, rfl⟩ := Option.map_eq_some_iff.mp hs
    cases (Monitor.step_spec hm).turns with
    | ends hready hx hall =>
      obtain ⟨hI', ha⟩ := hM.leave hI hx
      have himage : image f (⟨s.vars, m⟩ : Running V (Monitor.State Tid D Op Cv R)) = _ := image_put rfl rfl hall
      refine ⟨hI', .steps (b := .act t) rfl ?_⟩
      rw [himage]
      exact .act (Monitor.ready_doing hready) ha
    | sleeps hready hx hall =>
      obtain ⟨hI', hf, hnone⟩ := hM.sleep hI hx
      exact ⟨hI', .sleeps (image_congr rfl hf hall) (Monitor.ready_doing hready) hnone⟩
  | notify t pick =>
    obtain ⟨m, hm, rfl⟩ := Option.map_eq_some_iff.mp hs
    have hsteps := Monitor.step_spec hm
    cases hsteps.turns with
    | notifies hd hall =>
      refine ⟨hd ▸ hI, .notifies (image_congr rfl (congrArg f hd) hall) ?_⟩
      cases hsteps with
      | notify hpc _ =>
        simp only [Function.update_self, hpc, Pc.pending, List.length_cons]
        exact Nat.lt_succ_self _
  | spurious t =>
    obtain ⟨m, hm, rfl⟩ := Option.map_eq_some_iff.mp hs
    have hsteps := Monitor.step_spec hm
    cases hsteps.turns with
    | stirs hd hall =>
      refine ⟨hd ▸ hI, ?_⟩
      cases hsteps with
      | spurious hpc => exact .stirs (image_congr rfl (congrArg f hd) hall) hpc
  | ret t =>
    simp only [stepOn] at hs
    split at hs
    · rename_i op todo r hpc
      obtain ⟨m, hm, rfl⟩ := Option.map_eq_some_iff.mp hs
      cases (Monitor.step_spec hm).turns with
      | returns _ hd hall =>
        have himage : image f (⟨routine.takes s.vars t r, m⟩ : Running V (Monitor.State Tid D Op Cv R)) = _ :=
          image_put rfl (congrArg f hd) hall
        refine ⟨hd ▸ hI, .steps (b := .ret t) rfl ?_⟩
        rw [himage]
        have hd : (s.object.pc t).doing = .returning op r := by
          rw [hpc]
          rfl
        exact .ret hd
    · cases hs

/-- **Over a monitor a program comes to the states that it comes to over the object.** -/
theorem image_reachable (hM : M.Realizes O I f) (hr : (routine.onMonitor M).Reachable s) :
    I s.object.data ∧ (routine.onObject O).Reachable (image f s) := by
  refine hr.invariant (I := fun s => I s.object.data ∧ (routine.onObject O).Reachable (image f s)) ⟨hM.start, ?_⟩ ?_
  · have hstart : image f (routine.onMonitor M : Machine _ (Move Tid)).start = (routine.onObject O).start := by
      simp only [image, onMonitor, onObject, Pc.doing, hM.value]
    rw [hstart]
    exact .start
  · intro s a s' _ ih hs
    obtain ⟨hI, hseen⟩ := seen hM ih.1 hs
    refine ⟨hI, ?_⟩
    cases hseen with
    | steps _ hb => exact .step ih.2 (step_iff.mpr hb)
    | notifies he _ | sleeps he _ _ | stirs he _ =>
      rw [he]
      exact ih.2

/-! ## Ends -/

omit [Fintype Tid] in
theorem delivers_pending {pc pc' : Tid → Pc Op Cv R} {n : Notify Cv} (h : Monitor.Delivers pc n pc') (u : Tid) :
    (pc' u).pending = (pc u).pending := by
  cases h with
  | @wakes cv v op hv =>
    by_cases huv : u = v
    · subst huv
      rw [Function.update_self, hv]
      rfl
    · rw [Function.update_of_ne huv]
  | nobody _ => rfl
  | @everybody cv =>
    show ((pc u).wake cv).pending = (pc u).pending
    generalize pc u = p
    cases p with
    | asleep op c => by_cases hc : c = cv <;> simp [Pc.wake, Pc.pending, hc]
    | _ => rfl

omit [Fintype Tid] in
/-- A step of one thread leaves to the others the notifications that they have to make. -/
theorem pending_elsewhere {calls : Tid → Op → Bool} {m m' : Monitor.State Tid D Op Cv R} {b : Monitor.Label Tid Op}
    (hs : Monitor.Steps M calls m b m') {u : Tid} (hu : u ≠ Monitor.mover b) : (m'.pc u).pending = (m.pc u).pending := by
  have put : ∀ (pc : Tid → Pc Op Cv R) (p : Pc Op Cv R), (Function.update pc (Monitor.mover b) p u).pending = (pc u).pending := by
    intro pc p
    rw [Function.update_of_ne hu]
  cases hs with
  | leave _ _ hd =>
    refine (put _ _).trans ?_
    cases hd with
    | none => rfl
    | some hd => exact delivers_pending hd u
  | notify _ hd => exact (put _ _).trans (delivers_pending hd u)
  | call _ _ | sleep _ _ | spurious _ | ret _ => exact put _ _

theorem stepOn_object (hs : routine.stepOn M s a = some s') :
    s'.object = s.object ∨ ∃ b, Monitor.mover b = a.thread ∧ M.step (fun _ _ => true) s.object b = some s'.object := by
  cases a with
  | call t =>
    obtain ⟨⟨op, v⟩, _, h⟩ := Option.bind_eq_some_iff.mp hs
    obtain ⟨m, hm, rfl⟩ := Option.map_eq_some_iff.mp h
    exact .inr ⟨_, rfl, hm⟩
  | own t =>
    simp only [stepOn] at hs
    split at hs
    · obtain ⟨v, _, rfl⟩ := Option.map_eq_some_iff.mp hs
      exact .inl rfl
    · cases hs
  | acquire t pick | notify t pick | spurious t =>
    obtain ⟨m, hm, rfl⟩ := Option.map_eq_some_iff.mp hs
    exact .inr ⟨_, rfl, hm⟩
  | ret t =>
    simp only [stepOn] at hs
    split at hs
    · obtain ⟨m, hm, rfl⟩ := Option.map_eq_some_iff.mp hs
      exact .inr ⟨_, rfl, hm⟩
    · cases hs

omit [Fintype Tid] [DecidableEq Cv] in
def Answered (routine : Routine Tid Op R V) (O : Immediate S Op R) : Prop :=
  ∀ {s}, (routine.onObject O).Reachable s → ∀ {t op}, s.object.doing t = .calling op → O.answer op s.object.value ≠ none

theorem awake (hM : M.Realizes O I f) (hO : routine.Answered O) (hr : (routine.onMonitor M).Reachable s) (t : Tid) (op : Op)
    (cv : Cv) : s.object.pc t ≠ .asleep op cv := by
  induction hr with
  | start => simp [onMonitor]
  | @step s s' a hr hs ih =>
    intro ht
    obtain ⟨hI, himage⟩ := image_reachable hM hr
    rcases stepOn_object hs with he | ⟨b, -, hb⟩
    · rw [he] at ht
      exact ih ht
    · rcases (Monitor.step_spec hb).sleeper ht with ht | ⟨w, pick, -, hready, hx⟩
      · exact ih ht
      · obtain ⟨-, -, hnone⟩ := hM.sleep hI hx
        exact hO himage (t := t) (Monitor.ready_doing hready) hnone

section
variable {ρ : Type} [Preorder ρ] {done : Running V (Immediate.State Tid S Op R) → Prop}
  {rank : Running V (Immediate.State Tid S Op R) → ρ} {waits : Running V (Immediate.State Tid S Op R) → Tid}

/-- A thread that can move over the object can move over the monitor, if it is awake. -/
theorem moves_on {b : Label Tid} {o : Running V (Immediate.State Tid S Op R)} (hb : routine.Steps O (image f s) b o)
    (hawake : ∀ op cv, s.object.pc b.thread ≠ .asleep op cv) : ∃ a s', a.thread = b.thread ∧ routine.stepOn M s a = some s' := by
  have busy : ∀ {t}, (s.object.pc t).doing ≠ .nothing → (∀ op cv, s.object.pc t ≠ .asleep op cv) →
      ∃ a s', a.thread = t ∧ routine.stepOn M s a = some s' := by
    intro t hd hawake
    have hrests : (s.object.pc t).rests = false := by
      cases hpc : s.object.pc t with
      | idle =>
        rw [hpc] at hd
        exact absurd rfl hd
      | asleep op cv => exact absurd hpc (hawake op cv)
      | _ => rfl
    obtain ⟨a, m, hown, hm⟩ := Monitor.can_move M (fun _ _ => true) s.object hrests
    cases hown with
    | acquire pick => exact ⟨.acquire t pick, _, rfl, by rw [stepOn, hm]; rfl⟩
    | notify pick => exact ⟨.notify t pick, _, rfl, by rw [stepOn, hm]; rfl⟩
    | ret =>
      cases Monitor.step_spec hm with
      | @ret _ op r hpc => exact ⟨.ret t, _, rfl, by simp only [stepOn, hpc, hm]; rfl⟩
  cases hb with
  | @call t op v hd hcalls =>
    refine ⟨.call t, ⟨v, s.object.data, Function.update s.object.pc t (.entry op)⟩, rfl, ?_⟩
    have hcalls : routine.calls s.vars t = some (op, v) := hcalls
    simp [stepOn, hcalls, Monitor.step, Pc.idle_of_nothing hd]
  | @own t v hd hturns =>
    refine ⟨.own t, ⟨v, s.object⟩, rfl, ?_⟩
    have hturns : routine.turns s.vars t = some v := hturns
    simp [stepOn, Pc.idle_of_nothing hd, hturns]
  | act hd _ =>
    refine busy (fun h => ?_) hawake
    cases h.symm.trans hd
  | ret hd =>
    refine busy (fun h => ?_) hawake
    cases h.symm.trans hd

/-- **A program that ends over the object ends over the monitor**, if its calls can always be answered. -/
theorem ends_on (hM : M.Realizes O I f) (hO : routine.Answered O) (h : (routine.onObject O).Ending Label.thread done rank waits) :
    (routine.onMonitor M).Ending Move.thread (fun s => done (image f s))
      (fun s => toLex (rank (image f s), (s.object.pc (waits (image f s))).pending)) (fun s => waits (image f s)) where
  moves := by
    intro s hr hdone
    obtain ⟨b, o, hb, hs⟩ := h.moves (image_reachable hM hr).2 hdone
    rw [← hb]
    exact moves_on (step_iff.mp hs) (awake hM hO hr b.thread)
  nears := by
    intro s a s' hr hdone hs
    obtain ⟨hI, himage⟩ := image_reachable hM hr
    have pending : ∀ u, u ≠ a.thread → (s'.object.pc u).pending = (s.object.pc u).pending := by
      intro u hu
      rcases stepOn_object hs with he | ⟨b, hb, hm⟩
      · rw [he]
      · exact pending_elsewhere (Monitor.step_spec hm) (hb ▸ hu)
    have stays : rank (image f s') = rank (image f s) → waits (image f s') = waits (image f s) →
        a.thread ≠ waits (image f s) → Nears (fun s => toLex (rank (image f s), (s.object.pc (waits (image f s))).pending))
          (fun s => waits (image f s)) a.thread s s' := by
      intro hrank hwaits hne
      refine .inr ⟨hne, ?_, hwaits⟩
      simp only [hrank, hwaits, pending _ (Ne.symm hne)]
    cases (seen hM hI hs).2 with
    | steps hthread hb =>
      rcases h.nears himage hdone (step_iff.mpr hb) with hlt | ⟨hne, hrank, hwaits⟩
      · exact .inl (Prod.Lex.toLex_lt_toLex.mpr (.inl hlt))
      · exact stays hrank hwaits (hthread ▸ hne)
    | @notifies t pick he hlt =>
      by_cases ht : t = waits (image f s)
      · refine .inl (Prod.Lex.toLex_lt_toLex.mpr (.inr ⟨by rw [he], ?_⟩))
        simp only [he, ← ht]
        exact hlt
      · exact stays (by rw [he]) (by rw [he]) ht
    | @sleeps t pick op _ hd hnone => exact absurd hnone (hO himage (t := t) hd)
    | stirs _ hpc => exact absurd hpc (awake hM hO hr _ _ _)

end

theorem halts (hidle : ∀ t, s.object.pc t = .idle) (hcalls : ∀ t, routine.calls s.vars t = none)
    (hturns : ∀ t, routine.turns s.vars t = none) (a : Move Tid) : routine.stepOn M s a = none := by
  cases a with
  | call t => simp [stepOn, hcalls]
  | own t => simp [stepOn, hidle, hturns]
  | acquire t pick => simp [stepOn, Monitor.step, hidle, Pc.ready]
  | notify t pick => simp [stepOn, Monitor.step, hidle]
  | spurious t => simp [stepOn, Monitor.step, hidle]
  | ret t => simp [stepOn, hidle]

end Routine

end Interleave
