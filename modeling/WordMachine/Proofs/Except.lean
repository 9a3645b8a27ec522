import Mathlib.Data.List.Forall2

/-! # Computations that may fail

Success of a composition is success of its parts.
-/

namespace WordMachine

theorem exists_of_bind_eq_ok {α β ε : Type} {first : Except ε α} {next : α → Except ε β} {result : β}
    (success : first >>= next = .ok result) : ∃ value, first = .ok value ∧ next value = .ok result := by
  cases first with
  | error fault => cases success
  | ok value => exact ⟨value, rfl, success⟩

theorem exists_of_map_eq_ok {α β ε : Type} {first : Except ε α} {f : α → β} {result : β}
    (success : first.map f = .ok result) : ∃ value, first = .ok value ∧ f value = result := by
  cases first with
  | error fault => cases success
  | ok value =>
      cases success
      exact ⟨value, rfl, rfl⟩

theorem map_eq_error_iff {α β ε : Type} {first : Except ε α} {f : α → β} {fault : ε} :
    first.map f = .error fault ↔ first = .error fault := by
  cases first <;> simp [Except.map]

theorem of_mapError_eq_ok {α ε ε' : Type} {first : Except ε α} {f : ε → ε'} {result : α}
    (success : first.mapError f = .ok result) : first = .ok result := by
  cases first with
  | error fault => cases success
  | ok value =>
      cases success
      rfl

/-- A traversal succeeds if it succeeds for each input. -/
theorem mapM_eq_ok_iff {α β ε : Type} {f : α → Except ε β} {inputs : List α} {outputs : List β} :
    inputs.mapM f = .ok outputs ↔ List.Forall₂ (fun input output => f input = .ok output) inputs outputs := by
  constructor
  · intro success
    induction inputs generalizing outputs with
    | nil =>
        cases success
        exact .nil
    | cons input inputs ih =>
        rw [List.mapM_cons] at success
        obtain ⟨output, first, success⟩ := exists_of_bind_eq_ok success
        obtain ⟨outputs, others, success⟩ := exists_of_bind_eq_ok success
        cases success
        exact .cons first (ih others)
  · intro each
    induction each with
    | nil => rfl
    | cons first _ ih =>
        rw [List.mapM_cons, first, ih]
        rfl

/-- A traversal fails with the fault of the first input for which it fails. -/
theorem mapM_eq_error_iff {α β ε : Type} {f : α → Except ε β} {inputs : List α} {fault : ε} :
    inputs.mapM f = .error fault ↔ ∃ (index : Nat) (input : α), inputs[index]? = some input ∧ f input = .error fault ∧
      ∀ earlier < index, ∀ other, inputs[earlier]? = some other → ∃ output, f other = .ok output := by
  induction inputs with
  | nil => simp [pure, Except.pure]
  | cons first rest ih =>
      rw [List.mapM_cons]
      constructor
      · intro failed
        cases found : f first with
        | error other =>
            rw [found] at failed
            cases failed
            exact ⟨0, first, rfl, found, by simp⟩
        | ok output =>
            rw [found] at failed
            cases others : rest.mapM f with
            | ok outputs =>
                rw [others] at failed
                cases failed
            | error other =>
                rw [others] at failed
                cases failed
                obtain ⟨index, input, place, stops, passed⟩ := ih.1 others
                refine ⟨index + 1, input, place, stops, ?_⟩
                rintro (_ | earlier) before other same
                · exact ⟨output, Option.some.inj same ▸ found⟩
                · exact passed earlier (Nat.lt_of_succ_lt_succ before) other same
      · rintro ⟨index, input, place, stops, passed⟩
        cases index with
        | zero =>
            rw [Option.some.inj place, stops]
            rfl
        | succ index =>
            obtain ⟨output, found⟩ := passed 0 (Nat.succ_pos index) first rfl
            rw [found, ih.2 ⟨index, input, place, stops, fun earlier before => passed (earlier + 1) (by omega)⟩]
            rfl

section Range

variable {β ε : Type} {f : Nat → Except ε β} {count : Nat}

theorem mapM_range_eq_ok_iff {outputs : List β} :
    (List.range count).mapM f = .ok outputs ↔ outputs.length = count ∧
      ∀ index < count, ∃ output, outputs[index]? = some output ∧ f index = .ok output := by
  rw [mapM_eq_ok_iff, List.forall₂_iff_get]
  simp only [List.length_range, List.get_eq_getElem, List.getElem_range]
  constructor
  · rintro ⟨rfl, each⟩
    exact ⟨rfl, fun index inside => ⟨_, List.getElem?_eq_getElem inside, each index inside inside⟩⟩
  · rintro ⟨rfl, each⟩
    refine ⟨rfl, fun index inside bound => ?_⟩
    obtain ⟨output, place, success⟩ := each index inside
    rw [success, (List.getElem_eq_iff bound).2 place]

theorem mapM_range_eq_error_iff {fault : ε} :
    (List.range count).mapM f = .error fault ↔ ∃ index < count, f index = .error fault ∧
      ∀ earlier < index, ∃ output, f earlier = .ok output := by
  rw [mapM_eq_error_iff]
  constructor
  · rintro ⟨index, input, place, stops, passed⟩
    obtain ⟨inside, rfl⟩ := List.getElem?_eq_some_iff.1 place
    rw [List.getElem_range] at stops
    rw [List.length_range] at inside
    exact ⟨index, inside, stops, fun earlier before =>
      passed earlier before earlier (List.getElem?_range (Nat.lt_trans before inside))⟩
  · rintro ⟨index, inside, stops, passed⟩
    refine ⟨index, index, List.getElem?_range inside, stops, fun earlier before other place => ?_⟩
    rw [List.getElem?_range (Nat.lt_trans before inside)] at place
    cases place
    exact passed earlier before

end Range

end WordMachine
