import Yutil.Linearizable

/-!
# Queues that are linearizable keep the order of each producer

An object is a queue when each of its calls puts its argument at the end of
some list, takes its answer from the front, or leaves the list alone. In a
linearizable history of a queue, what one thread takes of another thread's
arguments it takes in the order in which that thread put them.
-/

namespace Interleave

section
variable {Op R S T : Type}

def put (arg : Op → Option T) (accepted : R → Bool) (x : Op × R) : Option T := if accepted x.2 then arg x.1 else none

/-- `arg` is what a call would put, `accepted` says that it did, and `got` is what it took. -/
structure IsQueue (allows : S → Op → R → S → Prop) (items : S → List T) (arg : Op → Option T) (accepted : R → Bool)
    (got : R → Option T) : Prop where
  moves : ∀ {f op r g}, allows f op r g →
    items f ++ (put arg accepted (op, r)).toList = (got r).toList ++ items g

def External.op : External Op R → Option Op
  | .call op => some op
  | .reply _ => none

def External.result : External Op R → Option R
  | .call _ => none
  | .reply r => some r

def handingIn (arg : Op → Option T) (accepted : R → Bool) (x : List T × Option Op) : External Op R → List T × Option Op
  | .call op => (x.1, some op)
  | .reply r => (x.1 ++ (x.2.bind fun op => put arg accepted (op, r)).toList, none)

def handedIn (arg : Op → Option T) (accepted : R → Bool) (h : List (External Op R)) : List T :=
  let x := h.foldl (handingIn arg accepted) ([], none)
  x.1 ++ (x.2.bind arg).toList

theorem put_or (arg : Op → Option T) (accepted : R → Bool) (x : Op × R) :
    put arg accepted x = none ∨ put arg accepted x = arg x.1 := by
  unfold put
  split
  · exact .inr rfl
  · exact .inl rfl

theorem Answered.handedIn {h : List (External Op R)} {s : List (Op × R)} {g : Stage Op R} (ha : Answered h s g)
    (arg : Op → Option T) (accepted : R → Bool) : (s.filterMap (put arg accepted)).Sublist (handedIn arg accepted h) := by
  have hexact : match g with
      | .idle => h.foldl (handingIn arg accepted) ([], none) = (s.filterMap (put arg accepted), none)
      | .called op => h.foldl (handingIn arg accepted) ([], none) = (s.filterMap (put arg accepted), some op)
      | .owed r => ∃ before op, s = before ++ [(op, r)] ∧
          h.foldl (handingIn arg accepted) ([], none) = (before.filterMap (put arg accepted), some op) := by
    induction ha with
    | nil => rfl
    | call op _ ih =>
      simp only at ih
      rw [List.foldl_append, ih]
      rfl
    | answer r _ ih => exact ⟨_, _, rfl, ih⟩
    | @reply h _ r _ ih =>
      obtain ⟨before, op, rfl, ih⟩ := ih
      have hlast : [(op, r)].filterMap (put arg accepted) = (put arg accepted (op, r)).toList := by
        rw [List.filterMap_cons]
        cases put arg accepted (op, r) <;> rfl
      rw [List.foldl_append, ih, List.filterMap_append, hlast]
      rfl
  unfold Interleave.handedIn
  cases g with
  | idle =>
    rw [hexact]
    exact List.sublist_append_left ..
  | called op =>
    rw [hexact]
    exact List.sublist_append_left ..
  | owed r =>
    obtain ⟨before, op, rfl, he⟩ := hexact
    rw [he, List.filterMap_append]
    refine List.Sublist.append (List.Sublist.refl _) ?_
    rw [List.filterMap_cons, List.filterMap_nil]
    rcases put_or arg accepted (op, r) with hp | hp
    · rw [hp]
      exact List.nil_sublist _
    · rw [hp]
      show List.Sublist _ (arg op).toList
      cases arg op <;> exact List.Sublist.refl _

theorem Answered.ops {h : List (External Op R)} {s : List (Op × R)} {g : Stage Op R} (ha : Answered h s g) :
    s.map (·.1) <+: h.filterMap External.op := by
  have hexact : match g with
      | .called op => s.map (·.1) ++ [op] = h.filterMap External.op
      | _ => s.map (·.1) = h.filterMap External.op := by
    induction ha with
    | nil => rfl
    | call op _ ih =>
      simp only at ih
      rw [List.filterMap_append, ← ih]
      rfl
    | answer r _ ih =>
      simp only at ih
      rw [List.map_append, ← ih]
      rfl
    | reply _ ih =>
      simp only at ih
      rw [List.filterMap_append, ← ih]
      exact (List.append_nil _).symm
  cases g with
  | called op => exact ⟨[op], hexact⟩
  | idle => exact ⟨[], (List.append_nil _).trans hexact⟩
  | owed r => exact ⟨[], (List.append_nil _).trans hexact⟩

theorem Answered.results {h : List (External Op R)} {s : List (Op × R)} {g : Stage Op R} (ha : Answered h s g) :
    h.filterMap External.result <+: s.map (·.2) := by
  have hexact : match g with
      | .owed r => s.map (·.2) = h.filterMap External.result ++ [r]
      | _ => s.map (·.2) = h.filterMap External.result := by
    induction ha with
    | nil => rfl
    | call op _ ih =>
      simp only at ih
      rw [List.filterMap_append, ih]
      exact (List.append_nil _).symm
    | answer r _ ih =>
      simp only at ih
      rw [List.map_append, ih]
      rfl
    | reply _ ih =>
      simp only at ih
      rw [List.filterMap_append, ih]
      rfl
  cases g with
  | owed r => exact ⟨[r], hexact.symm⟩
  | idle => exact ⟨[], (List.append_nil _).trans hexact.symm⟩
  | called op => exact ⟨[], (List.append_nil _).trans hexact.symm⟩

end

section
variable {Tid Op R S T : Type} {allows : S → Op → R → S → Prop} {items : S → List T} {arg : Op → Option T}
  {accepted : R → Bool} {got : R → Option T} {f g : S}

theorem Serial.balance (hq : IsQueue allows items arg accepted got) {s : List (Tid × Op × R)} (h : Serial allows f s g) :
    items f ++ s.filterMap (fun x => put arg accepted x.2) = s.filterMap (fun x => got x.2.2) ++ items g := by
  induction h with
  | nil => exact List.append_nil _
  | @cons f g h t op r s ha _ ih =>
    have hput : ((t, op, r) :: s).filterMap (fun x => put arg accepted x.2) =
        (put arg accepted (op, r)).toList ++ s.filterMap (fun x => put arg accepted x.2) := by
      rw [List.filterMap_cons]
      cases put arg accepted (op, r) <;> rfl
    have hgot : ((t, op, r) :: s).filterMap (fun x => got x.2.2) = (got r).toList ++ s.filterMap fun x => got x.2.2 := by
      rw [List.filterMap_cons]
      cases got r <;> rfl
    rw [hput, hgot, ← List.append_assoc, hq.moves ha, List.append_assoc, ih, List.append_assoc]

variable [DecidableEq Tid]

theorem filterMap_le {X Y : Type} {j k : X → Option Y} (h : ∀ x, j x = none ∨ j x = k x) {l : List X} :
    (l.filterMap j).Sublist (l.filterMap k) := by
  induction l with
  | nil => exact .slnil
  | cons x l ih =>
    rw [List.filterMap_cons, List.filterMap_cons]
    rcases h x with hx | hx <;> rw [hx]
    · cases k x with
      | none => exact ih
      | some y => exact ih.cons y
    · cases k x with
      | none => exact ih
      | some y => exact ih.cons_cons y

theorem filterMap_entriesOf {X Y : Type} (k : X → Option Y) (t : Tid) (l : List (Tid × X)) :
    ((entriesOf t l).filterMap k).Sublist (l.filterMap fun x => k x.2) := by
  unfold entriesOf
  rw [List.filterMap_filterMap]
  apply filterMap_le
  intro x
  by_cases hx : x.1 = t
  · exact .inr (by rw [if_pos hx]; rfl)
  · exact .inl (by rw [if_neg hx]; rfl)

theorem filter_puts {X Y : Type} {k : X → Option Y} {key : Y → Tid} (t : Tid) {l : List (Tid × X)}
    (hkey : ∀ x ∈ l, ∀ y, k x.2 = some y → key y = x.1) :
    (l.filterMap fun x => k x.2).filter (key · = t) = (entriesOf t l).filterMap k := by
  induction l with
  | nil => rfl
  | cons x l ih =>
    have ih := ih fun y hy => hkey y (List.mem_cons_of_mem _ hy)
    have hx := hkey x (List.mem_cons_self ..)
    rw [List.filterMap_cons]
    by_cases ht : x.1 = t
    · have he : entriesOf t (x :: l) = x.2 :: entriesOf t l := by simp [entriesOf, ht]
      rw [he, List.filterMap_cons]
      cases hk : k x.2 with
      | none => exact ih
      | some y =>
        have hy : decide (key y = t) = true := decide_eq_true ((hx y hk).trans ht)
        rw [List.filter_cons, if_pos hy, ih]
    · have he : entriesOf t (x :: l) = entriesOf t l := by simp [entriesOf, ht]
      rw [he]
      cases hk : k x.2 with
      | none => exact ih
      | some y =>
        have hy : ¬ decide (key y = t) = true := fun hd => ht ((hx y hk).symm.trans (of_decide_eq_true hd))
        rw [List.filter_cons, if_neg hy, ih]

/-- **A queue keeps the order of each producer**, when the arguments tell who put them. -/
theorem Linearizable.producers_in_order (hq : IsQueue allows items arg accepted got) {start : S} (h0 : items start = [])
    {h : List (Tid × External Op R)} (hl : Linearizable allows start h) {key : T → Tid}
    (hkey : ∀ t op v, .call op ∈ entriesOf t h → arg op = some v → key v = t) (t u : Tid) :
    ((((entriesOf u h).filterMap External.result).filterMap got).filter (key · = t)).Sublist
      (handedIn arg accepted (entriesOf t h)) := by
  obtain ⟨s, ⟨g, hserial⟩, hanswers, -⟩ := hl
  have hbalance := hserial.balance hq
  rw [h0, List.nil_append] at hbalance
  have hhonest : ∀ x ∈ s, ∀ v, put arg accepted x.2 = some v → key v = x.1 := by
    intro x hx v hv
    obtain ⟨_, ha⟩ := hanswers x.1
    have hmem : x.2 ∈ entriesOf x.1 s := List.mem_filterMap.mpr ⟨x, hx, if_pos rfl⟩
    obtain ⟨a, hcall, he⟩ := List.mem_filterMap.mp (ha.ops.subset (List.mem_map_of_mem (f := Prod.fst) hmem))
    cases a with
    | call op =>
      cases he
      refine hkey x.1 _ v hcall ?_
      rcases put_or arg accepted x.2 with hp | hp
      · cases hp.symm.trans hv
      · exact hp.symm.trans hv
    | reply r => cases he
  obtain ⟨_, hu⟩ := hanswers u
  obtain ⟨_, ht⟩ := hanswers t
  -- what `u` sees is among what all take, which was put
  have hseen : (((entriesOf u h).filterMap External.result).filterMap got).Sublist (s.filterMap fun x => got x.2.2) := by
    have hresults := hu.results.sublist.filterMap got
    rw [List.filterMap_map] at hresults
    exact hresults.trans (filterMap_entriesOf (fun x : Op × R => got x.2) u s)
  have htaken : (s.filterMap fun x => got x.2.2).Sublist (s.filterMap fun x => put arg accepted x.2) := by
    rw [hbalance]
    exact List.sublist_append_left ..
  have hfilter := (hseen.trans htaken).filter (key · = t)
  rw [filter_puts t hhonest] at hfilter
  exact hfilter.trans (ht.handedIn arg accepted)

end

end Interleave
