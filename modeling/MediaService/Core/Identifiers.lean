import Mathlib.Data.List.Basic
import Mathlib.Data.BitVec

/-! Identifiers and instants. A UUID is a 128-bit value; `UUID.str` is its
canonical hyphenated spelling, the form the service formats into object keys.
The spelling determines the value and never contains a slash. Instants are
microseconds, so an aware comparison of two of them is a comparison of
integers. -/

namespace MediaService

structure UUID where
  val : BitVec 128
  deriving DecidableEq

namespace UUID

/-- The hexadecimal digits, most significant first. -/
def hex (u : UUID) : List Char :=
  (List.range 32).map fun i => Nat.digitChar (u.val.extractLsb' (4 * (31 - i)) 4).toNat

/-- The characters of `str(uuid)`, in groups of 8, 4, 4, 4 and 12. -/
def chars (u : UUID) : List Char :=
  u.hex.take 8 ++ '-' :: (u.hex.drop 8).take 4 ++ '-' :: (u.hex.drop 12).take 4 ++
    '-' :: (u.hex.drop 16).take 4 ++ '-' :: u.hex.drop 20

def str (u : UUID) : String := String.ofList u.chars

theorem digitChar_mem (d : BitVec 4) : Nat.digitChar d.toNat ∈ "0123456789abcdef".toList :=
  (by decide : ∀ n : Fin 16, Nat.digitChar n ∈ "0123456789abcdef".toList) d.toFin

theorem digitChar_inj {d e : BitVec 4} (h : Nat.digitChar d.toNat = Nat.digitChar e.toNat) :
    d = e :=
  BitVec.toFin_inj.mp
    ((by decide : ∀ m n : Fin 16, Nat.digitChar m = Nat.digitChar n → m = n) d.toFin e.toFin h)

theorem mem_hex {u : UUID} {c : Char} (h : c ∈ u.hex) : c ∈ "0123456789abcdef".toList := by
  simp only [hex, List.mem_map] at h
  obtain ⟨i, -, rfl⟩ := h
  exact digitChar_mem _

theorem hex_length (u : UUID) : u.hex.length = 32 := by simp [hex]

theorem hex_injective : Function.Injective hex := by
  intro u v h
  have hdigit : ∀ i < 32,
      u.val.extractLsb' (4 * (31 - i)) 4 = v.val.extractLsb' (4 * (31 - i)) 4 := by
    intro i hi
    exact digitChar_inj (List.map_inj_left.mp h i (List.mem_range.mpr hi))
  have hval : u.val = v.val := by
    apply BitVec.eq_of_getLsbD_eq
    intro j hj
    have := congrArg (fun x => x.getLsbD (j % 4)) (hdigit (31 - j / 4) (by omega))
    simp only [BitVec.getLsbD_extractLsb', Nat.mod_lt j (by omega : 0 < 4), decide_true,
      Bool.true_and] at this
    rwa [show 4 * (31 - (31 - j / 4)) + j % 4 = j by omega] at this
  cases u; cases v; simpa using hval

/-- The digits are what is left of the spelling without its hyphens. -/
theorem filter_chars (u : UUID) : u.chars.filter (· ≠ '-') = u.hex := by
  have hkeep : ∀ l : List Char, (∀ c ∈ l, c ∈ u.hex) → l.filter (· ≠ '-') = l := by
    intro l hl
    rw [List.filter_eq_self]
    intro c hc
    have := mem_hex (hl c hc)
    rw [decide_eq_true_eq]
    rintro rfl
    revert this
    decide
  have ht : ∀ m n c, c ∈ (u.hex.drop m).take n → c ∈ u.hex := fun m n c h =>
    List.mem_of_mem_drop (List.mem_of_mem_take h)
  have hsplit : ∀ m n, (u.hex.drop m).take n ++ u.hex.drop (m + n) = u.hex.drop m := by
    intro m n
    rw [← List.drop_drop, List.take_append_drop]
  simp only [chars, List.filter_append, List.filter_cons]
  rw [hkeep _ (fun c => List.mem_of_mem_take), hkeep _ (ht 8 4), hkeep _ (ht 12 4),
    hkeep _ (ht 16 4), hkeep _ (fun c => List.mem_of_mem_drop)]
  simp only [ne_eq, not_true_eq_false, decide_false, Bool.false_eq_true, ↓reduceIte,
    List.append_assoc]
  rw [hsplit 16 4, hsplit 12 4, hsplit 8 4, List.take_append_drop]

theorem str_injective : Function.Injective str := by
  intro u v h
  apply hex_injective
  rw [← filter_chars, ← filter_chars, show u.chars = v.chars from String.ofList_injective h]

theorem slash_not_mem_str (u : UUID) : '/' ∉ u.str.toList := by
  rw [str, String.toList_ofList]
  intro h
  have hmem : '/' ∈ u.chars.filter (· ≠ '-') := List.mem_filter.mpr ⟨h, by decide⟩
  rw [filter_chars] at hmem
  exact absurd (mem_hex hmem) (by decide)

end UUID

/-- Microseconds since the epoch. -/
abbrev Timestamp := ℤ

/-- A `timedelta` of whole seconds. -/
def seconds (n : ℤ) : ℤ := n * 1000000

end MediaService
