import Mathlib.Data.Finset.Card
import Mathlib.Data.List.TakeWhile
import Mathlib.Tactic

/-!
# The order of last use

A history lists the uses of keys, each with the value that the key had, the last use first.
`recency` keeps the last use of every key, in the same order: it is what a list is that moves a key
to the front whenever the key is used (`touch`).

A cache of the last `n` keys used is the list cut off behind `n` (`touch_take`: cutting off may come
before the use of a key or behind it).  So a key is in the cache exactly if fewer than `n` other keys
were used since its last use (`find?_take_recency`), and the key that is cut off is the one whose last
use is longest ago (`usedSince_of_getLast`).
-/

namespace Recency

variable {K V : Type} [DecidableEq K]

/-- The use of a key, by a list that keeps each key once. -/
def touch (k : K) (v : V) (l : List (K × V)) : List (K × V) := (k, v) :: l.filter fun e => e.1 ≠ k

/-- The last uses of all keys. -/
def recency : List (K × V) → List (K × V)
  | [] => []
  | e :: h => touch e.1 e.2 (recency h)

/-- The uses since the last use of a key. -/
def since (h : List (K × V)) (k : K) : List (K × V) := h.takeWhile fun e => e.1 ≠ k

variable {k : K} {v : V} {l h : List (K × V)} {n : ℕ}

theorem mem_keys_touch {x : K} : x ∈ (touch k v l).map Prod.fst ↔ x = k ∨ x ∈ l.map Prod.fst := by
  by_cases hx : x = k
  · simp [touch, hx]
  · simp [touch, hx]

theorem nodup_touch (nodup : (l.map Prod.fst).Nodup) : ((touch k v l).map Prod.fst).Nodup := by
  rw [touch, List.map_cons, List.nodup_cons]
  refine ⟨fun hmem => ?_, nodup.sublist (List.filter_sublist.map _)⟩
  obtain ⟨e, he, hk⟩ := List.mem_map.mp hmem
  exact (of_decide_eq_true (List.mem_filter.mp he).2) hk

theorem mem_keys_recency {x : K} : x ∈ (recency h).map Prod.fst ↔ x ∈ h.map Prod.fst := by
  induction h with
  | nil => rfl
  | cons e h ih => rw [recency, mem_keys_touch, ih, List.map_cons, List.mem_cons]

theorem nodup_recency (h : List (K × V)) : ((recency h).map Prod.fst).Nodup := by
  induction h with
  | nil => exact List.nodup_nil
  | cons e h ih => exact nodup_touch ih

/-- The list is as long as there are keys. -/
theorem length_recency (h : List (K × V)) : (recency h).length = (h.map Prod.fst).toFinset.card := by
  have hkeys : (h.map Prod.fst).toFinset = ((recency h).map Prod.fst).toFinset := by
    ext x
    rw [List.mem_toFinset, List.mem_toFinset, mem_keys_recency]
  rw [hkeys, List.toFinset_card_of_nodup (nodup_recency h), List.length_map]

/-- **Before a key stand the keys used since.** -/
theorem since_recency (h : List (K × V)) (k : K) : since (recency h) k = recency (since h k) := by
  induction h with
  | nil => rfl
  | cons e h ih =>
      by_cases hk : e.1 = k
      · simp [since, recency, touch, hk]
      · have hswap : ((recency h).filter fun d => d.1 ≠ e.1).takeWhile (fun d => d.1 ≠ k)
            = ((recency h).takeWhile fun d => d.1 ≠ k).filter fun d => d.1 ≠ e.1 := by
          rw [List.takeWhile_filter]
          congr 2
          funext d
          by_cases hd : d.1 = k
          · have : k ≠ e.1 := fun heq => hk heq.symm
            simp [hd, this]
          · simp [hd]
        have hsince : since (e :: h) k = e :: since h k := by simp [since, hk]
        have hhead : since (recency (e :: h)) k
            = e :: ((recency h).filter fun d => d.1 ≠ e.1).takeWhile fun d => d.1 ≠ k := by
          simp [since, recency, touch, hk]
        rw [since] at ih
        rw [hhead, hswap, ih, hsince]
        rfl

/-- The value of a key is that of its last use. -/
theorem find?_recency (h : List (K × V)) (k : K) :
    (recency h).find? (fun e => e.1 = k) = h.find? fun e => e.1 = k := by
  induction h with
  | nil => rfl
  | cons e h ih =>
      by_cases hk : e.1 = k
      · subst hk
        simp [recency, touch]
      · rw [recency, touch, List.find?_cons_of_neg (by simpa using hk),
          List.find?_cons_of_neg (by simpa using hk), ← ih, List.find?_filter]
        refine List.find?_congr fun d _ => ?_
        by_cases hd : d.1 = k
        · have : k ≠ e.1 := fun heq => hk heq.symm
          simp [hd, this]
        · simp [hd]

/-- A search in the first elements finds what stands behind fewer than their number. -/
theorem find?_take {α : Type} (p : α → Bool) (xs : List α) (n : ℕ) :
    (xs.take n).find? p = if (xs.takeWhile fun a => !p a).length < n then xs.find? p else none := by
  induction xs generalizing n with
  | nil => cases n <;> rfl
  | cons x xs ih =>
      cases n with
      | zero => simp
      | succ n =>
          by_cases hx : p x = true
          · simp [hx]
          · simp [hx, ih]

/-- **What a cache of the last `n` keys knows**: the keys since whose last use fewer than `n` others
were used. -/
theorem find?_take_recency (h : List (K × V)) (k : K) (n : ℕ) :
    ((recency h).take n).find? (fun e => e.1 = k)
      = if ((since h k).map Prod.fst).toFinset.card < n then h.find? fun e => e.1 = k else none := by
  have hbefore : ((recency h).takeWhile fun e => !decide (e.1 = k)).length
      = ((since h k).map Prod.fst).toFinset.card := by
    rw [← length_recency, ← since_recency, since]
    simp
  rw [find?_take, hbefore, find?_recency]

/-- Of two keys only one was used since the last use of the other. -/
theorem since_asymm {x y : K} (hy : y ∈ (since h x).map Prod.fst) : x ∉ (since h y).map Prod.fst := by
  induction h with
  | nil => simp [since] at hy
  | cons e h ih =>
      by_cases hx : e.1 = x
      · simp [since, hx] at hy
      · by_cases hey : e.1 = y
        · simp [since, hey]
        · have htail : ∀ {k : K}, e.1 ≠ k → since (e :: h) k = e :: since h k := by
            intro k hk
            simp [since, hk]
          rw [htail hx, List.map_cons, List.mem_cons] at hy
          rw [htail hey, List.map_cons, List.mem_cons, not_or]
          exact ⟨fun heq => hx heq.symm, ih (hy.resolve_left fun heq => hey heq.symm)⟩

/-! ## Cutting off -/

/-- A key that occurs once is one element. -/
theorem length_le_filter (nodup : (l.map Prod.fst).Nodup) (k : K) :
    l.length ≤ (l.filter fun e => e.1 ≠ k).length + 1 := by
  induction l with
  | nil => exact Nat.zero_le _
  | cons e l ih =>
      rw [List.map_cons, List.nodup_cons] at nodup
      by_cases hk : e.1 = k
      · have hall : l.filter (fun d => d.1 ≠ k) = l := by
          refine List.filter_eq_self.mpr fun d hd => decide_eq_true fun hdk => nodup.1 ?_
          rw [hk, ← hdk]
          exact List.mem_map_of_mem hd
        rw [List.filter_cons_of_neg (by simpa using hk), hall, List.length_cons]
      · rw [List.filter_cons_of_pos (by simpa using hk), List.length_cons, List.length_cons]
        exact Nat.succ_le_succ (ih nodup.2)

/-- **Cutting off first changes nothing.** -/
theorem touch_take (nodup : (l.map Prod.fst).Nodup) (k : K) (v : V) (n : ℕ) :
    (touch k v (l.take (n + 1))).take (n + 1) = (touch k v l).take (n + 1) := by
  rw [touch, touch, List.take_succ_cons, List.take_succ_cons]
  congr 1
  rcases Nat.lt_or_ge (n + 1) l.length with hlong | hshort
  · obtain ⟨rest, hrest⟩ := (List.take_prefix (n + 1) l).filter fun e => decide (e.1 ≠ k)
    have hlength := length_le_filter (nodup.sublist ((List.take_sublist (n + 1) l).map _)) k
    rw [List.length_take_of_le hlong.le] at hlength
    rw [← hrest, List.take_append_of_le_length (Nat.le_of_succ_le_succ hlength)]
  · rw [List.take_of_length_le hshort]

/-- The use of a key that is in the list does not make it longer. -/
theorem length_touch_le (mem : k ∈ l.map Prod.fst) : (touch k v l).length ≤ l.length := by
  obtain ⟨e, he, rfl⟩ := List.mem_map.mp mem
  rw [touch, List.length_cons]
  exact List.length_filter_lt_length_iff_exists.mpr ⟨e, he, by simp⟩

/-- The use of a key that is in the cache. -/
theorem touch_take_of_mem (nodup : (l.map Prod.fst).Nodup) (mem : k ∈ (l.take n).map Prod.fst) :
    touch k v (l.take n) = (touch k v l).take n := by
  cases n with
  | zero => simp at mem
  | succ n =>
      have hlength : (touch k v (l.take (n + 1))).length ≤ n + 1 :=
        (length_touch_le mem).trans (List.length_take_le _ _)
      rw [← touch_take nodup, List.take_of_length_le hlength]

/-- **The key at the end was used longest ago**: all others of the cache were used since. -/
theorem usedSince_of_getLast {x y : K × V} (last : ((recency h).take n).getLast? = some x)
    (mem : y ∈ (recency h).take n) (ne : y.1 ≠ x.1) : y.1 ∈ (since h x.1).map Prod.fst := by
  obtain ⟨init, hinit⟩ : ∃ init, (recency h).take n = init ++ [x] := List.getLast?_eq_some_iff.mp last
  have hnodup := nodup_recency h
  rw [← List.take_append_drop n (recency h), hinit, List.append_assoc, List.map_append] at hnodup
  have hbefore : since (recency h) x.1 = init := by
    rw [since, ← List.take_append_drop n (recency h), hinit, List.append_assoc,
      List.takeWhile_append_of_pos]
    · simp
    · intro e he
      have hdisjoint := (List.nodup_append.mp hnodup).2.2
      exact decide_eq_true (hdisjoint _ (List.mem_map_of_mem he) _ (by simp))
  rw [← mem_keys_recency, ← since_recency, hbefore]
  rw [hinit] at mem
  rcases List.mem_append.mp mem with hy | hy
  · exact List.mem_map_of_mem hy
  · exact absurd (congrArg Prod.fst (List.mem_singleton.mp hy)) ne

end Recency
