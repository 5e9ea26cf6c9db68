import Mathlib.Logic.Function.Basic
import Mathlib.Data.List.Basic

/-!
# Objects in raw storage

Slots of raw storage in which objects are built and destroyed, with a log of
both. When an object is built only in an empty slot and destroyed only in one
that holds an object, the two alternate in every slot: no object is destroyed
twice, and none is lost.
-/

namespace Interleave

inductive ObjectEvent
  | built
  | destroyed
  deriving DecidableEq, Repr

/-- What happened to the objects of one slot, and whether there is one now. -/
inductive Alternates : List ObjectEvent → Bool → Prop
  | nil : Alternates [] false
  | built {l : List ObjectEvent} : Alternates l false → Alternates (l ++ [.built]) true
  | destroyed {l : List ObjectEvent} : Alternates l true → Alternates (l ++ [.destroyed]) false

def Gone (l : List ObjectEvent) : Prop := ∃ n, l = (List.replicate n [ObjectEvent.built, ObjectEvent.destroyed]).flatten

theorem Alternates.pairs {l : List ObjectEvent} {live : Bool} (h : Alternates l live) :
    ∃ n, l = (List.replicate n [ObjectEvent.built, ObjectEvent.destroyed]).flatten ++ if live then [.built] else [] := by
  induction h with
  | nil => exact ⟨0, rfl⟩
  | built _ ih =>
    obtain ⟨n, rfl⟩ := ih
    exact ⟨n, by simp⟩
  | destroyed _ ih =>
    obtain ⟨n, rfl⟩ := ih
    refine ⟨n + 1, ?_⟩
    rw [List.replicate_succ', List.flatten_concat]
    simp

theorem Alternates.gone {l : List ObjectEvent} (h : Alternates l false) : Gone l := by
  obtain ⟨n, rfl⟩ := h.pairs
  exact ⟨n, List.append_nil _⟩

section
variable {I T : Type} [DecidableEq I]

def ofSlot (i : I) (log : List (I × ObjectEvent)) : List ObjectEvent :=
  log.filterMap fun e => if e.1 = i then some e.2 else none

theorem ofSlot_self (i : I) (e : ObjectEvent) (log : List (I × ObjectEvent)) :
    ofSlot i (log ++ [(i, e)]) = ofSlot i log ++ [e] := by
  unfold ofSlot
  rw [List.filterMap_append]
  simp

theorem ofSlot_ne {i j : I} (h : j ≠ i) (e : ObjectEvent) (log : List (I × ObjectEvent)) :
    ofSlot i (log ++ [(j, e)]) = ofSlot i log := by
  unfold ofSlot
  rw [List.filterMap_append]
  simp [h]

def Kept (storage : I → Option T) (log : List (I × ObjectEvent)) : Prop :=
  ∀ i, Alternates (ofSlot i log) (storage i).isSome

variable {storage storage' : I → Option T} {log : List (I × ObjectEvent)}

theorem Kept.start : Kept (fun _ => none : I → Option T) [] := fun _ => .nil

theorem Kept.same (h : Kept storage log) (he : ∀ i, (storage' i).isSome = (storage i).isSome) : Kept storage' log := by
  intro i
  rw [he]
  exact h i

theorem Kept.replace (h : Kept storage log) {i : I} {x : Option T} (he : x.isSome = (storage i).isSome) :
    Kept (Function.update storage i x) log := by
  apply h.same
  intro j
  by_cases hj : j = i
  · subst hj
    rw [Function.update_self, he]
  · rw [Function.update_of_ne hj]

theorem Kept.build (h : Kept storage log) {i : I} (hi : storage i = none) (value : T) :
    Kept (Function.update storage i (some value)) (log ++ [(i, .built)]) := by
  intro j
  by_cases hj : i = j
  · subst hj
    have hl := h i
    rw [hi] at hl
    rw [ofSlot_self, Function.update_self]
    exact .built hl
  · rw [ofSlot_ne hj, Function.update_of_ne (Ne.symm hj)]
    exact h j

theorem Kept.destroy (h : Kept storage log) {i : I} (hi : (storage i).isSome = true) :
    Kept (Function.update storage i none) (log ++ [(i, .destroyed)]) := by
  intro j
  by_cases hj : i = j
  · subst hj
    have hl := h i
    rw [hi] at hl
    rw [ofSlot_self, Function.update_self]
    exact .destroyed hl
  · rw [ofSlot_ne hj, Function.update_of_ne (Ne.symm hj)]
    exact h j

end

end Interleave
