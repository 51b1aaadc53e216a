import Mathlib

/-!
# Decimal numbers as text

Digits are characters, the most significant one first. `value` reads on from a number, as a
scanner does that multiplies by ten for every digit.
-/
namespace HdrHistogramC.Decimal

def IsDigit (c : UInt8) : Prop := '0'.toUInt8 ≤ c ∧ c ≤ '9'.toUInt8

instance (c : UInt8) : Decidable (IsDigit c) := inferInstanceAs (Decidable (_ ∧ _))

def digit (c : UInt8) : ℕ := c.toNat - 48

/-- The number `n` with the digits `cs` after it. -/
def value (n : ℕ) (cs : List UInt8) : ℕ := cs.foldl (fun n c => n * 10 + digit c) n

def character (d : ℕ) : UInt8 := UInt8.ofNat (48 + d)

/-- A number without leading zeros. -/
def text (n : ℕ) : List UInt8 :=
  if n = 0 then [character 0] else (Nat.digits 10 n).reverse.map character

variable {c : UInt8} {cs : List UInt8} {n : ℕ}

@[simp] theorem value_nil (n : ℕ) : value n [] = n := rfl

@[simp] theorem value_cons (n : ℕ) (c : UInt8) (cs : List UInt8) :
    value n (c :: cs) = value (n * 10 + digit c) cs := List.foldl_cons ..

theorem isDigit_iff : IsDigit c ↔ 48 ≤ c.toNat ∧ c.toNat ≤ 57 := by
  rw [IsDigit, UInt8.le_iff_toNat_le, UInt8.le_iff_toNat_le]
  rfl

theorem IsDigit.digit_lt (h : IsDigit c) : digit c < 10 := by
  have := isDigit_iff.mp h
  rw [digit]
  omega

theorem value_append (n : ℕ) (cs ds : List UInt8) : value n (cs ++ ds) = value (value n cs) ds :=
  List.foldl_append

theorem le_value (n : ℕ) (cs : List UInt8) : n ≤ value n cs := by
  induction cs generalizing n with
  | nil => exact le_rfl
  | cons c cs ih =>
      have := ih (n * 10 + digit c)
      rw [value_cons]
      omega

theorem value_lt (hcs : ∀ c ∈ cs, IsDigit c) : value n cs < (n + 1) * 10 ^ cs.length := by
  induction cs generalizing n with
  | nil => simp
  | cons c cs ih =>
      have hc := (hcs c (by simp)).digit_lt
      calc value n (c :: cs) < (n * 10 + digit c + 1) * 10 ^ cs.length :=
            ih fun d hd => hcs d (List.mem_cons_of_mem _ hd)
        _ ≤ ((n + 1) * 10) * 10 ^ cs.length := by
            gcongr
            omega
        _ = (n + 1) * 10 ^ (c :: cs).length := by
            rw [List.length_cons, pow_succ]
            ring

theorem mul_pow_le_value (n : ℕ) (cs : List UInt8) : n * 10 ^ cs.length ≤ value n cs := by
  induction cs generalizing n with
  | nil => simp
  | cons c cs ih =>
      calc n * 10 ^ (c :: cs).length = n * 10 * 10 ^ cs.length := by
            rw [List.length_cons, pow_succ]
            ring
        _ ≤ (n * 10 + digit c) * 10 ^ cs.length := by
            gcongr
            omega
        _ ≤ value n (c :: cs) := ih _

theorem value_div (hcs : ∀ c ∈ cs, IsDigit c) : value n cs / 10 ^ cs.length = n :=
  Nat.div_eq_of_lt_le (mul_pow_le_value n cs) (value_lt hcs)

theorem digit_eq_zero_iff (hc : IsDigit c) : digit c = 0 ↔ c = '0'.toUInt8 := by
  have := isDigit_iff.mp hc
  rw [← UInt8.toNat_inj, digit, show ('0'.toUInt8).toNat = 48 from rfl]
  omega

theorem value_eq_zero_iff (hcs : ∀ c ∈ cs, IsDigit c) :
    value n cs = 0 ↔ n = 0 ∧ ∀ c ∈ cs, c = '0'.toUInt8 := by
  induction cs generalizing n with
  | nil => simp
  | cons c cs ih =>
      rw [value_cons, ih fun d hd => hcs d (List.mem_cons_of_mem _ hd), List.forall_mem_cons,
        ← digit_eq_zero_iff (hcs c (by simp)), ← and_assoc]
      refine and_congr_left fun _ => ?_
      omega

theorem floor_fraction {k : ℕ} (hcs : ∀ c ∈ cs, IsDigit c) (hk : k ≤ cs.length) :
    ⌊(value 0 cs : ℚ) / 10 ^ cs.length * 10 ^ k⌋ = value 0 (cs.take k) := by
  have hsplit : value 0 cs = value (value 0 (cs.take k)) (cs.drop k) := by
    rw [← value_append, List.take_append_drop]
  have hlength : (cs.drop k).length = cs.length - k := List.length_drop
  have hscale : (value 0 cs : ℚ) / 10 ^ cs.length * 10 ^ k =
      (value 0 cs : ℕ) / ((10 ^ (cs.length - k) : ℕ) : ℚ) := by
    push_cast
    rw [← Nat.sub_add_cancel hk, pow_add, Nat.add_sub_cancel]
    field_simp
  rw [hscale, Rat.floor_natCast_div_natCast, hsplit, ← hlength]
  exact_mod_cast value_div fun c hc => hcs c (List.mem_of_mem_drop hc)

theorem floor_fraction_of_le {k : ℕ} (hk : cs.length ≤ k) :
    ⌊(value 0 cs : ℚ) / 10 ^ cs.length * 10 ^ k⌋ = value 0 cs * 10 ^ (k - cs.length) := by
  have hscale : (value 0 cs : ℚ) / 10 ^ cs.length * 10 ^ k =
      ((value 0 cs * 10 ^ (k - cs.length) : ℕ) : ℚ) := by
    push_cast
    nth_rewrite 1 [← Nat.sub_add_cancel hk]
    rw [pow_add]
    field_simp
  rw [hscale, Int.floor_natCast]
  push_cast
  rfl

theorem character_digit {d : ℕ} (hd : d < 10) :
    IsDigit (character d) ∧ digit (character d) = d := by
  have hc : (character d).toNat = 48 + d := by
    rw [character, UInt8.toNat_ofNat', Nat.mod_eq_of_lt (by omega)]
  rw [isDigit_iff, digit, hc]
  omega

theorem text_isDigit (n : ℕ) : ∀ c ∈ text n, IsDigit c := by
  intro c hc
  rw [text] at hc
  split_ifs at hc
  · rw [List.mem_singleton] at hc
    rw [hc]
    exact (character_digit (by omega)).1
  · obtain ⟨d, hd, rfl⟩ := List.mem_map.mp hc
    exact (character_digit (Nat.digits_lt_base (by omega) (List.mem_reverse.mp hd))).1

theorem text_ne_nil (n : ℕ) : text n ≠ [] := by
  rw [text]
  split_ifs with h
  · exact List.cons_ne_nil _ _
  · rw [ne_eq, List.map_eq_nil_iff, List.reverse_eq_nil_iff, Nat.digits_eq_nil_iff_eq_zero]
    exact h

theorem text_length_le {k : ℕ} (hk : 0 < k) (hn : n < 10 ^ k) : (text n).length ≤ k := by
  rw [text]
  split_ifs
  · exact hk
  · rw [List.length_map, List.length_reverse]
    exact (Nat.digits_length_le_iff (by omega) n).mpr hn

theorem value_digits {ds : List ℕ} (hds : ∀ d ∈ ds, d < 10) :
    value 0 (ds.reverse.map character) = Nat.ofDigits 10 ds := by
  induction ds with
  | nil => rfl
  | cons d ds ih =>
      have hd := (character_digit (hds d (by simp))).2
      rw [List.reverse_cons, List.map_append, value_append,
        ih fun d hd => hds d (List.mem_cons_of_mem _ hd), List.map_singleton, value_cons, value_nil,
        hd, Nat.ofDigits_cons]
      omega

theorem value_text (n : ℕ) : value 0 (text n) = n := by
  rw [text]
  split_ifs with h
  · rw [h]
    rfl
  · rw [value_digits fun d hd => Nat.digits_lt_base (by omega) hd, Nat.ofDigits_digits]

end HdrHistogramC.Decimal
