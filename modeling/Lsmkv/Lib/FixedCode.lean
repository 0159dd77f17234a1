import Mathlib.Data.List.Lex
import Mathlib.Tactic

/-!
# Fixed-width little-endian codes over byte strings

A byte string is a list of bytes, ordered lexicographically by unsigned bytes
(`List.instLinearOrder` at `Fin 256`), which is the order of `memcmp` with the
shorter string first on a common prefix.

`fixedEncode w n` writes the `w` low bytes of `n`, least significant first, and
`fixedDecode w` reads them back.  Reading is partial: `none` is a read past the
end of the buffer, so a format that never leaves its buffer is one whose reads
are all `some`.

The facts a length-prefixed format needs are here: the width of a code
(`length_fixedEncode`), and reading a code off the front of a longer string
(`fixedDecode_fixedEncode_append`).
-/

namespace ByteCode

/-- A byte, as an unsigned number. -/
abbrev Byte := Fin 256

instance neZero_byte : NeZero 256 := ⟨by decide⟩

/-- A byte string.  `<` is the lexicographic order by unsigned bytes. -/
abbrev Bytes := List Byte

/-- The `w` low bytes of `n`, least significant first. -/
def fixedEncode : ℕ → ℕ → Bytes
  | 0, _ => []
  | w + 1, n => Fin.ofNat 256 n :: fixedEncode w (n / 256)

/-- Read a `w`-byte little-endian number off the front of a buffer; `none` when
the buffer is shorter than the read. -/
def fixedDecode : ℕ → Bytes → Option ℕ
  | 0, _ => some 0
  | _ + 1, [] => none
  | w + 1, b :: bs => (fixedDecode w bs).map fun n => b.val + 256 * n

@[simp] theorem length_fixedEncode (w n : ℕ) : (fixedEncode w n).length = w := by
  induction w generalizing n with
  | zero => rfl
  | succ w ih => simp [fixedEncode, ih]

/-- A code is read back off the front of any longer string, modulo its width. -/
@[simp] theorem fixedDecode_fixedEncode_append (w n : ℕ) (rest : Bytes) :
    fixedDecode w (fixedEncode w n ++ rest) = some (n % 256 ^ w) := by
  induction w generalizing n with
  | zero => simp [fixedDecode, Nat.mod_one]
  | succ w ih =>
      simp only [fixedEncode, List.cons_append, fixedDecode, ih, Option.map_some,
        Fin.val_ofNat, Option.some.injEq]
      rw [pow_succ', Nat.mod_mul]

theorem fixedDecode_fixedEncode (w n : ℕ) :
    fixedDecode w (fixedEncode w n) = some (n % 256 ^ w) := by
  simpa using fixedDecode_fixedEncode_append w n []

/-- A read that stays inside the buffer succeeds. -/
theorem fixedDecode_isSome {w : ℕ} {b : Bytes} (h : w ≤ b.length) :
    ∃ n, fixedDecode w b = some n := by
  induction w generalizing b with
  | zero => exact ⟨0, rfl⟩
  | succ w ih =>
      cases b with
      | nil => simp at h
      | cons x xs =>
          obtain ⟨n, hn⟩ := ih (b := xs) (by simpa using h)
          exact ⟨x.val + 256 * n, by simp [fixedDecode, hn]⟩

/-- A read that leaves the buffer fails. -/
theorem length_of_fixedDecode {w n : ℕ} {b : Bytes} (h : fixedDecode w b = some n) :
    w ≤ b.length := by
  induction w generalizing b n with
  | zero => exact Nat.zero_le _
  | succ w ih =>
      cases b with
      | nil => simp [fixedDecode] at h
      | cons x xs =>
          obtain ⟨m, hm, -⟩ := Option.map_eq_some_iff.mp h
          exact Nat.succ_le_succ (ih hm)

/-- A number that was read off the front of a buffer is coded there. -/
theorem fixedEncode_of_fixedDecode {w n : ℕ} {b : Bytes} (h : fixedDecode w b = some n) :
    fixedEncode w n = b.take w := by
  induction w generalizing b n with
  | zero => simp [fixedEncode]
  | succ w ih =>
      cases b with
      | nil => simp [fixedDecode] at h
      | cons x xs =>
          obtain ⟨m, hm, rfl⟩ := Option.map_eq_some_iff.mp h
          have hx := x.isLt
          have hlow : Fin.ofNat 256 (x.val + 256 * m) = x := by
            apply Fin.ext
            rw [Fin.val_ofNat]
            omega
          rw [fixedEncode, hlow, List.take_succ_cons, ← ih hm]
          congr 2
          omega

/-- A read that stays inside the buffer does not depend on what follows. -/
theorem fixedDecode_append {w : ℕ} {b : Bytes} (long : w ≤ b.length) (rest : Bytes) :
    fixedDecode w (b ++ rest) = fixedDecode w b := by
  obtain ⟨n, hn⟩ := fixedDecode_isSome long
  have hb : b = fixedEncode w n ++ b.drop w := by
    rw [fixedEncode_of_fixedDecode hn, List.take_append_drop]
  rw [hb, List.append_assoc, fixedDecode_fixedEncode_append, fixedDecode_fixedEncode_append]

end ByteCode
