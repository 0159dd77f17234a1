import Mathlib.Data.List.Basic
import Mathlib.Order.MinMax

/-!
# Overwriting part of a list

`overwrite fill l off data` puts `data` at position `off` of a list.  Where the list is shorter,
it is filled up first, as a file is when something is written behind its end.
-/

namespace Overwrite

variable {α : Type*}

/-- Put `data` at position `off`. -/
def overwrite (fill : α) (l : List α) (off : ℕ) (data : List α) : List α :=
  (l ++ List.replicate (off - l.length) fill).take off ++ data ++ l.drop (off + data.length)

variable (fill : α) (l : List α) (off : ℕ) (data : List α)

@[simp]
theorem length_overwrite : (overwrite fill l off data).length = max l.length (off + data.length) := by
  simp only [overwrite, List.length_append, List.length_take, List.length_replicate,
    List.length_drop]
  omega

theorem length_front : ((l ++ List.replicate (off - l.length) fill).take off).length = off := by
  simp only [List.length_append, List.length_take, List.length_replicate]
  omega

/-- Before the data, the list is as it was, or filled. -/
theorem getElem?_overwrite_before {i : ℕ} (h : i < off) :
    (overwrite fill l off data)[i]? = some (l[i]?.getD fill) := by
  have hfront := length_front fill l off
  rw [overwrite, List.append_assoc, List.getElem?_append_left (by omega), List.getElem?_take,
    if_pos h]
  by_cases hi : i < l.length
  · rw [List.getElem?_append_left hi, List.getElem?_eq_getElem hi, Option.getD_some]
  · rw [List.getElem?_append_right (by omega), List.getElem?_replicate, if_pos (by omega),
      List.getElem?_eq_none (by omega), Option.getD_none]

/-- The data. -/
theorem getElem?_overwrite_data {i : ℕ} (h : off ≤ i) (h' : i < off + data.length) :
    (overwrite fill l off data)[i]? = data[i - off]? := by
  have hfront := length_front fill l off
  rw [overwrite, List.append_assoc, List.getElem?_append_right (by omega),
    List.getElem?_append_left (by omega), hfront]

/-- Behind the data, the list is as it was. -/
theorem getElem?_overwrite_behind {i : ℕ} (h : off + data.length ≤ i) :
    (overwrite fill l off data)[i]? = l[i]? := by
  have hfront := length_front fill l off
  rw [overwrite, List.getElem?_append_right (by rw [List.length_append]; omega),
    List.getElem?_drop, List.length_append, hfront]
  congr 1
  omega

/-- The list up to the end of the data, where it is long enough. -/
theorem take_overwrite (h : off ≤ l.length) :
    (overwrite fill l off data).take (off + data.length) = l.take off ++ data := by
  have hfill : List.replicate (off - l.length) fill = [] := by
    rw [Nat.sub_eq_zero_of_le h, List.replicate_zero]
  rw [overwrite, hfill, List.append_nil]
  refine List.take_left' ?_
  rw [List.length_append, List.length_take, Nat.min_eq_left h]

end Overwrite
