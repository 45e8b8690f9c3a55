import Mathlib.Algebra.Order.Field.Power
import Mathlib.Algebra.Order.Floor.Ring
import Mathlib.Data.Int.Log
import Mathlib.Tactic.Positivity
import Mathlib.Tactic.Ring

namespace Onnxsim.Lib.Ties

variable {F : Type} [Field F] [LinearOrder F] [IsStrictOrderedRing F]

/-- A rounding to a nearest integer, ties broken in any way. -/
def Nearest (r : F → Int) : Prop := ∀ v, |(r v : F) - v| ≤ 1 / 2

/-- The nearest integer, and of two the even one. -/
def halfEven [FloorRing F] (v : F) : Int :=
  if 1 / 2 < v - ⌊v⌋ ∨ (v - ⌊v⌋ = 1 / 2 ∧ ⌊v⌋ % 2 = 1) then ⌊v⌋ + 1 else ⌊v⌋

variable {v : F} {lo hi : Int}

section

variable [FloorRing F]

theorem nearest_halfEven : Nearest (halfEven : F → Int) := by
  intro v
  have hlo := Int.floor_le v
  have hhi := Int.lt_floor_add_one v
  rw [halfEven]
  split
  · next hup =>
    have hhalf : 1 / 2 ≤ v - ⌊v⌋ := by
      rcases hup with hup | hup
      · exact hup.le
      · exact hup.1.ge
    push_cast
    rw [abs_le]
    constructor <;> linarith
  · next hdown =>
    have hhalf : v - ⌊v⌋ ≤ 1 / 2 := by
      by_contra hlt
      exact hdown (.inl (lt_of_not_ge hlt))
    rw [abs_le]
    constructor <;> linarith

@[simp]
theorem halfEven_intCast (n : Int) : halfEven (n : F) = n := by
  have hnot : ¬((1 : F) / 2 < 0 ∨ (0 : F) = 1 / 2 ∧ n % 2 = 1) := by
    rintro (h | h)
    · linarith [show (0 : F) < 1 / 2 by positivity]
    · linarith [h.1, show (0 : F) < 1 / 2 by positivity]
  rw [halfEven, Int.floor_intCast, sub_self, if_neg hnot]

omit [IsStrictOrderedRing F] in
theorem halfEven_nonneg (hv : 0 ≤ v) : 0 ≤ halfEven v := by
  have hfloor := Int.floor_nonneg.mpr hv
  rw [halfEven]
  split <;> omega

/-- A negative number more than half below zero rounds below it, and the others round to at most zero. -/
theorem halfEven_nonpos (hv : v ≤ 0) : halfEven v ≤ 0 := by
  by_contra hpos
  have hone : (1 : F) ≤ halfEven v := by exact_mod_cast not_le.mp hpos
  have := (abs_le.mp (nearest_halfEven v)).2
  linarith

theorem halfEven_zero : halfEven (0 : F) = 0 := by
  have := halfEven_intCast (F := F) 0
  rwa [Int.cast_zero] at this

end

def saturate (lo hi q : Int) : Int := max lo (min hi q)

/-- The number halfway between `k` and `k + 1`. -/
def tie (k : Int) : F := (2 * k + 1) / 2

theorem saturate_eq_of_le {q : Int} (h : q ≤ lo) : saturate lo hi q = lo := by
  rw [saturate]
  omega

theorem saturate_eq_of_ge {q q' : Int} (h : hi ≤ q) (h' : hi ≤ q') : saturate lo hi q = saturate lo hi q' := by
  rw [saturate, saturate]
  omega

theorem tie_ne_zero (k : Int) : (tie k : F) ≠ 0 := by
  have hodd : (2 * k + 1 : Int) ≠ 0 := by omega
  rw [tie]
  apply div_ne_zero
  · exact_mod_cast hodd
  · norm_num

section

variable {r : F → Int} (hr : Nearest r)

include hr

variable {k zero : Int} {p : F}

theorem le_tie (h : r v ≤ k) : v ≤ tie k := by
  have hk : (r v : F) ≤ k := by exact_mod_cast h
  have := abs_le.mp (hr v)
  rw [tie]
  linarith

theorem tie_le (h : k < r v) : tie k ≤ v := by
  have hk : (k : F) + 1 ≤ r v := by exact_mod_cast h
  have := abs_le.mp (hr v)
  rw [tie]
  linarith

/-- Two values whose saturated roundings differ have a tie between them that is not in the saturated part. -/
theorem exists_tie_of_lt (h : saturate lo hi (r p + zero) ≠ saturate lo hi (r v + zero)) (hlt : r p < r v) :
    ∃ k : Int, lo - zero ≤ k ∧ k < hi - zero ∧ p ≤ tie k ∧ tie k ≤ v := by
  have hbelow : r p + zero < hi := by
    by_contra hge
    exact h (saturate_eq_of_ge (by omega) (by omega))
  have habove : lo < r v + zero := by
    by_contra hle
    exact h (by rw [saturate_eq_of_le (by omega), saturate_eq_of_le (by omega)])
  have hrange : lo < hi := by
    by_contra hle
    have hconst : ∀ q, saturate lo hi q = lo := by
      intro q
      rw [saturate]
      omega
    exact h (by rw [hconst, hconst])
  refine ⟨max (r p) (lo - zero), le_max_right _ _, by omega, le_tie hr (le_max_left _ _), ?_⟩
  exact tie_le hr (by omega)

theorem exists_tie (h : saturate lo hi (r p + zero) ≠ saturate lo hi (r v + zero)) :
    ∃ k : Int, lo - zero ≤ k ∧ k < hi - zero ∧ |v - tie k| ≤ |p - v| := by
  have hne : r p ≠ r v := by
    intro heq
    exact h (by rw [heq])
  rcases lt_or_gt_of_ne hne with hlt | hgt
  · obtain ⟨k, hlo, hhi, hp, hv⟩ := exists_tie_of_lt hr h hlt
    refine ⟨k, hlo, hhi, ?_⟩
    rw [abs_of_nonneg (by linarith), abs_of_nonpos (by linarith)]
    linarith
  · obtain ⟨k, hlo, hhi, hv, hp⟩ := exists_tie_of_lt hr h.symm hgt
    refine ⟨k, hlo, hhi, ?_⟩
    rw [abs_of_nonpos (by linarith), abs_of_nonneg (by linarith)]
    linarith

theorem rounds_apart (h : 1 < |p - v|) : r p ≠ r v := by
  intro heq
  have hp := hr p
  have hv := hr v
  rw [heq] at hp
  have htri : |p - v| ≤ |p - r v| + |r v - v| := abs_sub_le _ _ _
  rw [abs_sub_comm p (r v : F)] at htri
  linarith

end

theorem distance_le {t ε : F} (h0 : 0 ≤ ε) (h1 : ε < 1) (h : |v - t| ≤ ε * |v|) : |v - t| ≤ ε * |t| / (1 - ε) := by
  rw [le_div_iff₀ (by linarith)]
  have htri : |v| ≤ |v - t| + |t| := by
    have := abs_add_le (v - t) t
    rwa [sub_add_cancel] at this
  have hscaled := mul_le_mul_of_nonneg_left htri h0
  linarith

end Onnxsim.Lib.Ties

namespace Onnxsim.Lib.Wrapping

/-- A way to add terms up: an order and a grouping of the additions. -/
inductive AddTree (α : Type) where
  | term (a : α)
  | join (l r : AddTree α)

namespace AddTree

variable {α : Type}

def terms : AddTree α → List α
  | .term a => [a]
  | .join l r => l.terms ++ r.terms

/-- The additions in a register of `w` bits, which drops what does not fit. -/
def wrapped (w : Nat) : AddTree Int → BitVec w
  | .term a => BitVec.ofInt w a
  | .join l r => l.wrapped w + r.wrapped w

theorem wrapped_eq (w : Nat) (t : AddTree Int) : t.wrapped w = BitVec.ofInt w t.terms.sum := by
  induction t with
  | term a => simp [wrapped, terms]
  | join l r ihl ihr => rw [wrapped, ihl, ihr, terms, List.sum_append, BitVec.ofInt_add]

/-- Where the exact sum fits, every order gives it, whatever was dropped on the way. -/
theorem wrapped_exact {w : Nat} (hw : 0 < w) (t : AddTree Int) {l : List Int} (ht : t.terms.Perm l)
    (hlo : -2 ^ (w - 1) ≤ l.sum) (hhi : l.sum < 2 ^ (w - 1)) : (t.wrapped w).toInt = l.sum := by
  rw [wrapped_eq, ht.sum_eq]
  exact BitVec.toInt_ofInt_eq_self hw hlo hhi

end AddTree

end Onnxsim.Lib.Wrapping

namespace Onnxsim.Lib.Binary

open Ties

/-- A binary floating-point format: the bits of a significand and the exponent of the least positive number. -/
structure Format where
  precision : Nat
  emin : Int

variable {F : Type} [Field F] [LinearOrder F] [IsStrictOrderedRing F] [FloorRing F] (f : Format)

/-- The exponent of the last bit of the numbers next to `q`. -/
def quantum (q : F) : Int := max f.emin (Int.log 2 |q| + 1 - f.precision)

/-- The significand of the number next to `q`. -/
def significand (q : F) : Int := halfEven (q / 2 ^ quantum f q)

/-- The number of the format next to `q`, ties to even. -/
def round (q : F) : F := significand f q * 2 ^ quantum f q

/-- The numbers of the format, if the exponent had no upper bound. -/
def Representable (q : F) : Prop := ∃ k e : Int, |k| < 2 ^ f.precision ∧ f.emin ≤ e ∧ q = k * 2 ^ e

variable {f} {q : F}

theorem quantum_pos (q : F) : (0 : F) < 2 ^ quantum f q := by positivity

omit [IsStrictOrderedRing F] in
theorem emin_le_quantum (q : F) : f.emin ≤ quantum f q := le_max_left _ _

theorem round_error (q : F) : |round f q - q| ≤ 2 ^ quantum f q / 2 := by
  have h := nearest_halfEven (q / 2 ^ quantum f q)
  have hpos := quantum_pos (f := f) q
  have hscale : round f q - q = ((significand f q : F) - q / 2 ^ quantum f q) * 2 ^ quantum f q := by
    rw [sub_mul, div_mul_cancel₀ _ hpos.ne', round]
  rw [hscale, abs_mul, abs_of_pos hpos]
  have := mul_le_mul_of_nonneg_right h hpos.le
  rw [significand]
  linarith

theorem log_scale (hq : q ≠ 0) : (2 : F) ^ (Int.log 2 |q| + 1 - f.precision) ≤ |q| * 2 / 2 ^ f.precision := by
  have hlog := Int.zpow_log_le_self one_lt_two (abs_pos.mpr hq)
  rw [zpow_sub₀ two_ne_zero, zpow_add_one₀ two_ne_zero, zpow_natCast]
  push_cast at hlog
  gcongr

theorem round_error_le (hq : q ≠ 0) : |round f q - q| ≤ |q| / 2 ^ f.precision + 2 ^ f.emin / 2 := by
  have h := round_error (f := f) q
  have hlog := log_scale (f := f) hq
  have hmin : (0 : F) < 2 ^ f.emin := by positivity
  have hrel : 0 ≤ |q| / 2 ^ f.precision := by positivity
  rcases max_cases f.emin (Int.log 2 |q| + 1 - f.precision) with ⟨hmax, -⟩ | ⟨hmax, -⟩
  · rw [quantum, hmax] at h
    linarith
  · rw [quantum, hmax] at h
    have : |q| * 2 / 2 ^ f.precision / 2 = |q| / 2 ^ f.precision := by ring
    linarith

@[simp]
theorem round_zero : round f (0 : F) = 0 := by
  rw [round, significand, zero_div, halfEven_zero, Int.cast_zero, zero_mul]

theorem quantum_le {k e : Int} (hk : |k| < 2 ^ f.precision) (he : f.emin ≤ e) (hk0 : k ≠ 0) :
    quantum f ((k : F) * 2 ^ e) ≤ e := by
  apply max_le he
  have hpos : 0 < |(k : F) * 2 ^ e| := abs_pos.mpr (mul_ne_zero (by exact_mod_cast hk0) (by positivity))
  have hlt : |(k : F) * 2 ^ e| < ((2 : Nat) : F) ^ ((f.precision : Int) + e) := by
    have hk' : |(k : F)| < 2 ^ f.precision := by exact_mod_cast hk
    rw [abs_mul, abs_of_pos (show (0 : F) < 2 ^ e by positivity), Nat.cast_ofNat,
      zpow_add₀ two_ne_zero, zpow_natCast]
    gcongr
  have := (Int.lt_zpow_iff_log_lt one_lt_two hpos).mp hlt
  omega

theorem round_exact (h : Representable f q) : round f q = q := by
  obtain ⟨k, e, hk, he, rfl⟩ := h
  by_cases hk0 : k = 0
  · subst hk0
    simp
  · have hle := quantum_le (F := F) hk he hk0
    obtain ⟨n, hn⟩ := Int.eq_ofNat_of_zero_le (show 0 ≤ e - quantum f ((k : F) * 2 ^ e) by omega)
    have hsplit : (2 : F) ^ e = 2 ^ n * 2 ^ quantum f ((k : F) * 2 ^ e) := by
      rw [← zpow_natCast, ← zpow_add₀ two_ne_zero]
      congr 1
      omega
    have hquot : (k : F) * 2 ^ e / 2 ^ quantum f ((k : F) * 2 ^ e) = ((k * 2 ^ n : Int) : F) := by
      rw [div_eq_iff (quantum_pos _).ne', Int.cast_mul, Int.cast_pow, Int.cast_ofNat, mul_assoc, ← hsplit]
    rw [round, significand, hquot, halfEven_intCast, Int.cast_mul, Int.cast_pow, Int.cast_ofNat, mul_assoc,
      ← hsplit]

theorem round_nonneg (hq : 0 ≤ q) : 0 ≤ round f q := by
  have hsig : 0 ≤ significand f q := halfEven_nonneg (div_nonneg hq (quantum_pos q).le)
  exact mul_nonneg (by exact_mod_cast hsig) (quantum_pos q).le

theorem round_nonpos (hq : q ≤ 0) : round f q ≤ 0 := by
  have hsig : significand f q ≤ 0 := halfEven_nonpos (div_nonpos_of_nonpos_of_nonneg hq (quantum_pos q).le)
  exact mul_nonpos_of_nonpos_of_nonneg (by exact_mod_cast hsig) (quantum_pos q).le

theorem round_ne_zero (hp : 1 ≤ f.precision) (hq : (2 : F) ^ f.emin ≤ |q|) : round f q ≠ 0 := by
  intro hzero
  have hq0 : q ≠ 0 := by
    rintro rfl
    rw [abs_zero] at hq
    exact absurd hq (not_le.mpr (by positivity))
  have h := round_error (f := f) q
  rw [hzero, zero_sub, abs_neg] at h
  have hqpos := abs_pos.mpr hq0
  rcases max_cases f.emin (Int.log 2 |q| + 1 - f.precision) with ⟨hmax, -⟩ | ⟨hmax, -⟩
  · rw [quantum, hmax] at h
    linarith [show (0 : F) < 2 ^ f.emin by positivity]
  · rw [quantum, hmax] at h
    have hlog := log_scale (f := f) hq0
    have htwo : (2 : F) ≤ 2 ^ f.precision := by
      have := pow_le_pow_right₀ (one_le_two : (1 : F) ≤ 2) hp
      rwa [pow_one] at this
    have hsmall : |q| * 2 / 2 ^ f.precision ≤ |q| := by
      rw [div_le_iff₀ (by positivity)]
      exact mul_le_mul_of_nonneg_left htwo hqpos.le
    linarith

theorem abs_significand_le (q : F) : |significand f q| ≤ 2 ^ f.precision := by
  have hnear := nearest_halfEven (q / 2 ^ quantum f q)
  have hlt : |q / 2 ^ quantum f q| < 2 ^ f.precision := by
    rw [abs_div, abs_of_pos (quantum_pos q), div_lt_iff₀ (quantum_pos q), ← zpow_natCast,
      ← zpow_add₀ two_ne_zero]
    have hlog := Int.lt_zpow_succ_log_self one_lt_two |q|
    apply hlog.trans_le
    apply zpow_le_zpow_right₀ one_le_two
    have := le_max_right f.emin (Int.log 2 |q| + 1 - f.precision)
    rw [← quantum] at this
    omega
  have hsum : |((significand f q : Int) : F)| < 2 ^ f.precision + 1 := by
    have htri := abs_add_le ((significand f q : F) - q / 2 ^ quantum f q) (q / 2 ^ quantum f q)
    rw [sub_add_cancel] at htri
    rw [significand] at htri ⊢
    linarith
  have : |significand f q| < 2 ^ f.precision + 1 := by exact_mod_cast hsum
  omega

theorem le_abs_significand (hp : 1 ≤ f.precision) (hq : q ≠ 0) (he : f.emin < quantum f q) :
    2 ^ (f.precision - 1) ≤ |significand f q| := by
  have hquantum : quantum f q = Int.log 2 |q| + 1 - f.precision := by
    rw [quantum] at he ⊢
    omega
  have hnear := nearest_halfEven (q / 2 ^ quantum f q)
  have hge : (2 : F) ^ (f.precision - 1) ≤ |q / 2 ^ quantum f q| := by
    rw [abs_div, abs_of_pos (quantum_pos q), le_div_iff₀ (quantum_pos q), ← zpow_natCast,
      ← zpow_add₀ two_ne_zero]
    have hlog := Int.zpow_log_le_self one_lt_two (abs_pos.mpr hq)
    refine le_trans (zpow_le_zpow_right₀ one_le_two ?_) hlog
    omega
  have hsum : (2 : F) ^ (f.precision - 1) - 1 < |((significand f q : Int) : F)| := by
    have htri := abs_add_le (q / 2 ^ quantum f q - significand f q) (significand f q : F)
    rw [sub_add_cancel, abs_sub_comm] at htri
    rw [significand] at htri ⊢
    linarith
  have : (2 : Int) ^ (f.precision - 1) - 1 < |significand f q| := by exact_mod_cast hsum
  omega

theorem representable_round (hp : 1 ≤ f.precision) (q : F) : Representable f (round f q) := by
  have hle := abs_significand_le (f := f) q
  by_cases hlt : |significand f q| < 2 ^ f.precision
  · exact ⟨significand f q, quantum f q, hlt, emin_le_quantum q, rfl⟩
  · have hpow : (2 : Int) ^ f.precision = 2 ^ (f.precision - 1) * 2 := by
      rw [← pow_succ, Nat.sub_add_cancel hp]
    have hone : (1 : Int) ≤ 2 ^ (f.precision - 1) := one_le_pow₀ one_le_two
    have habs : |significand f q| = 2 ^ (f.precision - 1) * 2 := by omega
    have hmin := emin_le_quantum (f := f) q
    have hstep : (2 : F) ^ (quantum f q + 1) = 2 * 2 ^ quantum f q := by
      rw [zpow_add_one₀ two_ne_zero]
      ring
    rcases abs_choice (significand f q) with hs | hs
    · refine ⟨2 ^ (f.precision - 1), quantum f q + 1, ?_, by omega, ?_⟩
      · rw [abs_of_nonneg (by omega)]
        omega
      · rw [round, ← hs, habs, hstep]
        push_cast
        ring
    · refine ⟨-2 ^ (f.precision - 1), quantum f q + 1, ?_, by omega, ?_⟩
      · rw [abs_neg, abs_of_nonneg (by omega)]
        omega
      · have hneg : significand f q = -(2 ^ (f.precision - 1) * 2) := by omega
        rw [round, hneg, hstep]
        push_cast
        ring

theorem eq_significand (h : Representable f q) : q = significand f q * 2 ^ quantum f q := (round_exact h).symm

theorem abs_significand_lt (h : Representable f q) : |significand f q| < 2 ^ f.precision := by
  have hlt : |q| < 2 ^ ((f.precision : Int) + quantum f q) := by
    have hlog := Int.lt_zpow_succ_log_self one_lt_two |q|
    apply hlog.trans_le
    apply zpow_le_zpow_right₀ one_le_two
    have := le_max_right f.emin (Int.log 2 |q| + 1 - f.precision)
    rw [← quantum] at this
    omega
  rw [eq_significand h, abs_mul, abs_of_pos (quantum_pos q), zpow_add₀ two_ne_zero, zpow_natCast] at hlt
  have hquantum : quantum f ((significand f q : F) * 2 ^ quantum f q) = quantum f q := by
    rw [← eq_significand h]
  rw [hquantum] at hlt
  have := lt_of_mul_lt_mul_right hlt (quantum_pos q).le
  exact_mod_cast this

omit [LinearOrder F] [IsStrictOrderedRing F] [FloorRing F] in
theorem representable_multiple [CharZero F] (h : Representable f q) : ∃ n : Int, q = n * 2 ^ f.emin := by
  obtain ⟨k, e, -, he, rfl⟩ := h
  obtain ⟨n, hn⟩ := Int.eq_ofNat_of_zero_le (show 0 ≤ e - f.emin by omega)
  refine ⟨k * 2 ^ n, ?_⟩
  have hsplit : (2 : F) ^ e = 2 ^ n * 2 ^ f.emin := by
    rw [← zpow_natCast, ← zpow_add₀ two_ne_zero]
    congr 1
    omega
  rw [hsplit]
  push_cast
  ring

omit [FloorRing F] in
theorem emin_le_abs_sub {a b : F} (ha : Representable f a) (hb : Representable f b) (hne : a ≠ b) :
    (2 : F) ^ f.emin ≤ |a - b| := by
  obtain ⟨m, rfl⟩ := representable_multiple ha
  obtain ⟨n, rfl⟩ := representable_multiple hb
  have hmn : 1 ≤ |m - n| := by
    have : m ≠ n := by
      rintro rfl
      exact hne rfl
    exact Int.one_le_abs (sub_ne_zero.mpr this)
  have hpos : (0 : F) < 2 ^ f.emin := by positivity
  rw [← sub_mul, abs_mul, abs_of_pos hpos, ← Int.cast_sub, ← Int.cast_abs]
  exact le_mul_of_one_le_left hpos.le (by exact_mod_cast hmn)

end Onnxsim.Lib.Binary
