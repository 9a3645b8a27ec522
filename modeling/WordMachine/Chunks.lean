/-! # Chunks of a list

A list cut into pieces of a fixed length, of which only the last may be shorter.  `flatten_chunks` says that
no element is lost or moved.
-/

namespace WordMachine

/-- The pieces of `length` elements of a list, the last one shorter if the elements do not suffice.  Pieces
    without elements would never end, so for them the whole list is one piece. -/
def chunks {α : Type} (length : Nat) (elements : List α) : List (List α) :=
  if elements = [] then []
  else if length = 0 then [elements]
  else elements.take length :: chunks length (elements.drop length)
termination_by elements.length
decreasing_by
  have := List.length_pos_iff.2 ‹elements ≠ []›
  rw [List.length_drop]
  omega

@[simp] theorem chunks_nil {α : Type} (length : Nat) : chunks length ([] : List α) = [] := by
  rw [chunks]
  rfl

theorem flatten_chunks {α : Type} (length : Nat) (elements : List α) :
    (chunks length elements).flatten = elements := by
  fun_induction chunks length elements with
  | case1 => rfl
  | case2 => simp
  | case3 elements _ _ ih => rw [List.flatten_cons, ih, List.take_append_drop]

theorem chunks_append {α : Type} {length : Nat} (positive : 0 < length) {piece : List α}
    (whole : piece.length = length) (rest : List α) : chunks length (piece ++ rest) = piece :: chunks length rest := by
  have nonempty : piece ++ rest ≠ [] := by
    apply List.append_ne_nil_of_left_ne_nil
    apply List.ne_nil_of_length_pos
    omega
  rw [chunks, if_neg nonempty, if_neg (by omega), List.take_left' whole, List.drop_left' whole]

/-- Items that are written with the same number of elements each are found again. -/
theorem chunks_flatMap {α β : Type} {length : Nat} (positive : 0 < length) {write : β → List α}
    (whole : ∀ item, (write item).length = length) (items : List β) :
    chunks length (items.flatMap write) = items.map write := by
  induction items with
  | nil => exact chunks_nil length
  | cons item rest ih => rw [List.flatMap_cons, chunks_append positive (whole item), ih, List.map_cons]

theorem chunks_map {α β : Type} (length : Nat) (f : α → β) (elements : List α) :
    chunks length (elements.map f) = (chunks length elements).map (List.map f) := by
  fun_induction chunks length elements with
  | case1 => exact chunks_nil length
  | case2 elements nonempty without =>
      rw [chunks, if_neg (by simpa using nonempty), if_pos without]
      rfl
  | case3 elements nonempty positive ih =>
      rw [chunks, if_neg (by simpa using nonempty), if_neg positive, List.map_cons, ← ih, List.map_take,
        List.map_drop]

/-- The pieces by their places: each piece starts where those before it end. -/
theorem chunks_eq_map_range {α : Type} {length : Nat} (positive : 0 < length) (elements : List α) :
    chunks length elements = (List.range ((elements.length + length - 1) / length)).map fun index =>
      (elements.drop (length * index)).take length := by
  fun_induction chunks length elements with
  | case1 =>
      rw [List.length_nil, Nat.zero_add, Nat.div_eq_of_lt (Nat.sub_lt positive Nat.one_pos)]
      rfl
  | case2 => omega
  | case3 elements nonempty _ ih =>
      -- Without its first piece a list has one piece less.
      have count : (elements.length + length - 1) / length =
          ((elements.drop length).length + length - 1) / length + 1 := by
        have some := List.length_pos_iff.2 nonempty
        rw [List.length_drop, show elements.length + length - 1 = elements.length - 1 + length by omega,
          Nat.add_div_right _ positive]
        rcases Nat.le_total length elements.length with long | short
        · rw [Nat.sub_add_cancel long]
        · rw [Nat.sub_eq_zero_of_le short, Nat.div_eq_of_lt (by omega), Nat.div_eq_of_lt (by omega)]
      rw [ih, count, List.range_succ_eq_map, List.map_cons, List.map_map, Nat.mul_zero, List.drop_zero]
      congr 1
      apply List.map_congr_left
      intro index _
      rw [List.drop_drop, Function.comp, Nat.mul_succ, Nat.add_comm]

end WordMachine
