import Mathlib.Algebra.Order.Field.Basic
import Mathlib.Algebra.Order.Ring.Rat
import Mathlib.Order.Monotone.Basic
import Mathlib.Tactic.IntervalCases
import Mathlib.Tactic.Linarith
import Mathlib.Tactic.Ring

namespace Onnxsim.Lib.Minifloats

section

/-- Sign, exponent and mantissa in one word, with the code of the largest finite magnitude. -/
structure Layout where
  mantissa : Nat
  bias : Nat
  sign : Nat
  top : Nat

/-- Exponent and mantissa in one code, in units of the least positive number. -/
def magnitude (w code : Nat) : Nat := if code < 2 ^ w then code else (2 ^ w + code % 2 ^ w) * 2 ^ (code / 2 ^ w - 1)

variable (L : Layout)

def Layout.Finite (p : Nat) : Prop := p < 2 ^ (L.sign + 1) ∧ p % 2 ^ L.sign ≤ L.top

def Layout.size (code : Nat) : ℚ := magnitude L.mantissa code / 2 ^ (L.bias + L.mantissa - 1)

def Layout.value (p : Nat) : ℚ := (-1) ^ (p / 2 ^ L.sign) * L.size (p % 2 ^ L.sign)

/-- A finite word nearest to `x`. Of two that are equally near it is the one whose code `prefer` puts first. -/
structure Rounds (prefer : Nat → Nat → Prop) (x : ℚ) (p : Nat) : Prop where
  finite : L.Finite p
  nearest : ∀ c, L.Finite c → |L.value p - x| ≤ |L.value c - x|
  tie : ∀ c, L.Finite c → |L.value c - x| = |L.value p - x| →
    L.value c = L.value p ∨ prefer (p % 2 ^ L.sign) (c % 2 ^ L.sign)

/-- A code nearest to the magnitude `X`. -/
def Layout.Nearest (prefer : Nat → Nat → Prop) (X : ℚ) (r : Nat) : Prop :=
  ∀ c, |L.size r - X| ≤ |L.size c - X| ∧ (|L.size c - X| = |L.size r - X| → c = r ∨ prefer r c)

/-- Ties away from zero: codes grow with the magnitude. -/
def Away (r c : Nat) : Prop := c < r

def ToEven (r c : Nat) : Prop := r % 2 = 0 ∧ c % 2 = 1

variable {w c : Nat}

theorem word_fields {n s r : Nat} (hr : r < 2 ^ n) : (s * 2 ^ n + r) / 2 ^ n = s ∧ (s * 2 ^ n + r) % 2 ^ n = r := by
  rw [Nat.add_comm, Nat.add_mul_div_right _ _ (Nat.two_pow_pos n), Nat.div_eq_of_lt hr, Nat.zero_add,
    Nat.add_mul_mod_self_right, Nat.mod_eq_of_lt hr]
  exact ⟨rfl, rfl⟩

theorem magnitude_of_lt (h : c < 2 ^ w) : magnitude w c = c := if_pos h

theorem magnitude_of_le (h : 2 ^ w ≤ c) : magnitude w c = (2 ^ w + c % 2 ^ w) * 2 ^ (c / 2 ^ w - 1) := if_neg (not_lt.mpr h)

theorem magnitude_fields {e m : Nat} (he : 0 < e) (hm : m < 2 ^ w) :
    magnitude w (e * 2 ^ w + m) = (2 ^ w + m) * 2 ^ (e - 1) := by
  have hle : 2 ^ w ≤ e * 2 ^ w + m := (Nat.le_mul_of_pos_left _ he).trans (Nat.le_add_right _ _)
  rw [magnitude_of_le hle, (word_fields hm).1, (word_fields hm).2]

theorem magnitude_succ (w c : Nat) : magnitude w (c + 1) = magnitude w c + 2 ^ (c / 2 ^ w - 1) := by
  have hpos := Nat.two_pow_pos w
  have hc := Nat.div_add_mod' c (2 ^ w)
  have hm := Nat.mod_lt c hpos
  generalize c / 2 ^ w = e at hc ⊢
  generalize c % 2 ^ w = m at hc hm
  subst hc
  cases e with
  | zero =>
    rw [Nat.zero_mul, Nat.zero_add, magnitude_of_lt hm]
    by_cases hlast : m + 1 < 2 ^ w
    · rw [magnitude_of_lt hlast, Nat.zero_sub, pow_zero]
    · have hone : m + 1 = 1 * 2 ^ w + 0 := by omega
      rw [hone, magnitude_fields one_pos hpos, Nat.sub_self, Nat.zero_sub, pow_zero]
      omega
  | succ e =>
    rw [magnitude_fields e.succ_pos hm, Nat.succ_sub_one]
    by_cases hlast : m + 1 < 2 ^ w
    · rw [Nat.add_assoc, magnitude_fields e.succ_pos hlast, Nat.succ_sub_one]
      ring
    · have hnext : (e + 1) * 2 ^ w + m + 1 = (e + 2) * 2 ^ w + 0 := by
        have : m + 1 = 2 ^ w := by omega
        rw [Nat.add_assoc, this]
        ring
      have hm' : 2 ^ w = m + 1 := by omega
      rw [hnext, magnitude_fields (by omega) hpos, show e + 2 - 1 = e + 1 by omega, hm']
      ring

theorem magnitude_strictMono (w : Nat) : StrictMono (magnitude w) := by
  refine strictMono_nat_of_lt_succ fun c => ?_
  rw [magnitude_succ]
  exact Nat.lt_add_of_pos_right (Nat.two_pow_pos _)

theorem Layout.size_strictMono (L : Layout) : StrictMono L.size := by
  intro a b h
  have hlt : (magnitude L.mantissa a : ℚ) < magnitude L.mantissa b := by exact_mod_cast magnitude_strictMono _ h
  exact div_lt_div_of_pos_right hlt (by positivity)

theorem Layout.size_zero (L : Layout) : L.size 0 = 0 := by
  rw [size, magnitude_of_lt (Nat.two_pow_pos _), Nat.cast_zero, zero_div]

theorem Layout.size_nonneg (L : Layout) (c : Nat) : 0 ≤ L.size c := by
  rw [← L.size_zero]
  exact L.size_strictMono.monotone (Nat.zero_le c)

theorem Layout.abs_value (L : Layout) (p : Nat) : |L.value p| = L.size (p % 2 ^ L.sign) := by
  rw [value, abs_mul, abs_pow, abs_neg, abs_one, one_pow, one_mul, abs_of_nonneg (L.size_nonneg _)]

end

variable {L : Layout} {prefer : Nat → Nat → Prop} {x y X : ℚ} {p q r c s : Nat}

/-- The sign of a number decides nothing: what is on the other side of zero is no nearer than zero. -/
theorem rounds_signed (htop : L.top < 2 ^ L.sign) (hs : s < 2) (hr : r ≤ L.top) (hX : 0 ≤ X) (h : L.Nearest prefer X r) :
    Rounds L prefer ((-1) ^ s * X) (s * 2 ^ L.sign + r) := by
  obtain ⟨hdiv, hmod⟩ := word_fields (s := s) (hr.trans_lt htop)
  have habs (a b : ℚ) : |(-1) ^ s * a - (-1) ^ s * b| = |a - b| := by
    rw [← mul_sub, abs_mul, abs_pow, abs_neg, abs_one, one_pow, one_mul]
  have hp : L.value (s * 2 ^ L.sign + r) = (-1) ^ s * L.size r := by rw [Layout.value, hdiv, hmod]
  have hzero := h 0
  rw [L.size_zero, zero_sub, abs_neg, abs_of_nonneg hX] at hzero
  have hcases : ∀ c, L.Finite c → L.value c = (-1) ^ s * L.size (c % 2 ^ L.sign) ∨
      L.value c = (-1) ^ s * -L.size (c % 2 ^ L.sign) := by
    intro c hc
    have hlt : c / 2 ^ L.sign < 2 := by
      rw [Nat.div_lt_iff_lt_mul (Nat.two_pow_pos _)]
      exact hc.1.trans_eq (pow_succ' 2 L.sign)
    rw [Layout.value]
    generalize c / 2 ^ L.sign = t at hlt
    interval_cases t <;> interval_cases s <;> simp
  refine ⟨⟨?_, hmod.trans_le hr⟩, fun c hc => ?_, fun c hc htie => ?_⟩
  · have hle : s * 2 ^ L.sign ≤ 2 ^ L.sign := Nat.mul_le_of_le_div _ _ _ (by rw [Nat.div_self (Nat.two_pow_pos _)]; omega)
    rw [pow_succ]
    omega
  · rw [hp, habs]
    rcases hcases c hc with hval | hval
    · rw [hval, habs]
      exact (h _).1
    · rw [hval, habs]
      have := L.size_nonneg (c % 2 ^ L.sign)
      refine hzero.1.trans ?_
      rw [abs_of_nonpos (by linarith)]
      linarith
  · rw [hp, habs] at htie
    rw [hp, hmod]
    rcases hcases c hc with hval | hval
    · rw [hval, habs] at htie
      refine ((h _).2 htie).imp_left fun heq => ?_
      rw [hval, heq]
    · rw [hval, habs] at htie
      have hnonneg := L.size_nonneg (c % 2 ^ L.sign)
      rw [abs_of_nonpos (show -L.size (c % 2 ^ L.sign) - X ≤ 0 by linarith)] at htie
      have hsize : L.size (c % 2 ^ L.sign) = 0 := by linarith [hzero.1]
      have hcode : c % 2 ^ L.sign = 0 := L.size_strictMono.injective (hsize.trans L.size_zero.symm)
      rw [hcode]
      refine (hzero.2 (by linarith)).imp_left fun heq => ?_
      rw [hval, hsize, ← heq, L.size_zero, neg_zero]

theorem Rounds.mono (hprefer : ∀ r c, prefer r c → ¬prefer c r) (hp : Rounds L prefer x p) (hq : Rounds L prefer y q)
    (h : x ≤ y) : L.value p ≤ L.value q := by
  by_contra hlt
  rw [not_le] at hlt
  have h₁ := hp.nearest q hq.finite
  have h₂ := hq.nearest p hp.finite
  have hx : L.value p + L.value q ≤ 2 * x := by
    by_contra hnot
    rw [abs_le] at h₁
    rcases abs_cases (L.value q - x) with ⟨habs, -⟩ | ⟨habs, -⟩ <;> linarith
  have hy : 2 * y ≤ L.value p + L.value q := by
    by_contra hnot
    rw [abs_le] at h₂
    rcases abs_cases (L.value p - y) with ⟨habs, -⟩ | ⟨habs, -⟩ <;> linarith
  obtain rfl : x = y := by linarith
  have heq : |L.value q - x| = |L.value p - x| := by
    rw [abs_of_nonpos (by linarith), abs_of_nonneg (by linarith)]
    linarith
  have hpq := (hp.tie q hq.finite heq).resolve_left hlt.ne
  exact hprefer _ _ hpq ((hq.tie p hp.finite heq.symm).resolve_left hlt.ne')

/-- A number of the format is rounded to itself. -/
theorem Rounds.exact (hp : Rounds L prefer (L.value c) p) (hc : L.Finite c)
    (hsign : p / 2 ^ L.sign = c / 2 ^ L.sign) : p = c := by
  have hle := hp.nearest c hc
  rw [sub_self, abs_zero] at hle
  have heq : L.value p = L.value c := sub_eq_zero.mp (abs_nonpos_iff.mp hle)
  rw [Layout.value, Layout.value, hsign] at heq
  have hcode := L.size_strictMono.injective (mul_left_cancel₀ (pow_ne_zero _ (neg_ne_zero.mpr one_ne_zero)) heq)
  rw [← Nat.div_add_mod p (2 ^ L.sign), hsign, hcode, Nat.div_add_mod]

/-- Whether `n / 2 ^ k` is rounded up; `up` decides it where `n` is halfway. -/
def bump (up : Bool) (n k : Nat) : Nat := if 2 ^ (k - 1) < n % 2 ^ k ∨ n % 2 ^ k = 2 ^ (k - 1) ∧ up then 1 else 0

def single : Layout := ⟨23, 127, 31, 0x7F7FFFFF⟩

/-- What the narrowing of a single to a format relies on, `d` being the difference of the two biases. -/
structure Narrows (L : Layout) (prefer : Nat → Nat → Prop) (up : Nat → Bool) (d : Nat) : Prop where
  prefer : ∀ c, if up c then prefer (c + 1) c else prefer c (c + 1)
  mantissa : L.mantissa ≤ 22
  bias : 1 ≤ L.bias
  biases : d + L.bias = 127
  low : L.mantissa < d
  top : L.top < 2 ^ L.sign

/-- The code with `w` bits of mantissa for a single's code. -/
def narrow (up : Nat → Bool) (w d code : Nat) : Nat :=
  let exp := code / 2 ^ 23
  let mant := code % 2 ^ 23
  if exp + w < d then 0
  else if exp ≤ d then
    let k := 24 - w + (d - exp)
    (2 ^ 23 + mant) / 2 ^ k + bump (up ((2 ^ 23 + mant) / 2 ^ k)) (2 ^ 23 + mant) k
  else
    (exp - d) * 2 ^ w + mant / 2 ^ (23 - w) + bump (up ((exp - d) * 2 ^ w + mant / 2 ^ (23 - w))) mant (23 - w)

variable {u : ℚ} {n k : Nat} {up : Bool}

/-- Between two neighbouring codes: `X` lies `n % 2 ^ k` of `2 ^ k` parts above the lower one. -/
theorem nearest_bump (hprefer : if up then prefer (c + 1) c else prefer c (c + 1)) (hk : 0 < k) (hu : 0 < u)
    (hX : X = L.size c + (n % 2 ^ k : Nat) * u) (hnext : L.size (c + 1) = L.size c + 2 ^ k * u) :
    L.Nearest prefer X (c + bump up n k) := by
  intro d
  have hhalf : (2 : ℚ) ^ k = 2 * 2 ^ (k - 1) := by rw [← pow_succ', Nat.sub_add_cancel hk]
  have hrem : ((n % 2 ^ k : Nat) : ℚ) < 2 ^ k := by exact_mod_cast Nat.mod_lt n (Nat.two_pow_pos k)
  have hrem0 : (0 : ℚ) ≤ (n % 2 ^ k : Nat) * u := by positivity
  have hremu : ((n % 2 ^ k : Nat) : ℚ) * u < 2 ^ k * u := mul_lt_mul_of_pos_right hrem hu
  have hlow : d ≤ c → L.size d ≤ L.size c := fun h => L.size_strictMono.monotone h
  have hhigh : c < d → L.size (c + 1) ≤ L.size d := fun h => L.size_strictMono.monotone h
  have hinj := L.size_strictMono.injective
  rw [bump]
  by_cases hup : 2 ^ (k - 1) < n % 2 ^ k ∨ n % 2 ^ k = 2 ^ (k - 1) ∧ up
  · have hge : (2 : ℚ) ^ (k - 1) * u ≤ (n % 2 ^ k : Nat) * u := by
      refine mul_le_mul_of_nonneg_right ?_ hu.le
      exact_mod_cast hup.elim le_of_lt fun h => h.1.ge
    rw [if_pos hup, abs_of_nonneg (show 0 ≤ L.size (c + 1) - X by linarith)]
    rcases Nat.lt_or_ge c d with hd | hd
    · have hle := hhigh hd
      rw [abs_of_nonneg (by linarith)]
      exact ⟨by linarith, fun h => .inl (hinj (by linarith))⟩
    · have hle := hlow hd
      rw [abs_of_nonpos (by linarith)]
      refine ⟨by rw [hhalf] at hnext; linarith, fun h => .inr ?_⟩
      have hd : d = c := hinj (by rw [hhalf] at hnext; linarith)
      have hmid : (n % 2 ^ k : Nat) * u = 2 ^ (k - 1) * u := by rw [hhalf] at hnext; linarith
      have htie : n % 2 ^ k = 2 ^ (k - 1) := by exact_mod_cast mul_right_cancel₀ hu.ne' hmid
      rw [if_pos (hup.resolve_left htie.not_gt).2] at hprefer
      exact hd ▸ hprefer
  · rw [not_or, not_lt, not_and] at hup
    have hge : (n % 2 ^ k : Nat) * u ≤ (2 : ℚ) ^ (k - 1) * u := by
      refine mul_le_mul_of_nonneg_right ?_ hu.le
      exact_mod_cast hup.1
    rw [if_neg (by rw [not_or, not_lt, not_and]; exact hup), Nat.add_zero, abs_of_nonpos (show L.size c - X ≤ 0 by linarith)]
    rcases Nat.lt_or_ge c d with hd | hd
    · have hle := hhigh hd
      rw [abs_of_nonneg (by linarith)]
      refine ⟨by rw [hhalf] at hnext; linarith, fun h => .inr ?_⟩
      have hd : d = c + 1 := hinj (by rw [hhalf] at hnext; linarith)
      have hmid : (n % 2 ^ k : Nat) * u = 2 ^ (k - 1) * u := by rw [hhalf] at hnext; linarith
      have htie : n % 2 ^ k = 2 ^ (k - 1) := by exact_mod_cast mul_right_cancel₀ hu.ne' hmid
      rw [if_neg (hup.2 htie)] at hprefer
      exact hd ▸ hprefer
    · have hle := hlow hd
      rw [abs_of_nonpos (by linarith)]
      exact ⟨by linarith, fun h => .inl (hinj (by linarith))⟩

variable {N d e m : Nat} {up : Nat → Bool}

/-- Below the least normal number the codes are the multiples of the least positive one. -/
theorem nearest_low (h : Narrows L prefer up d) (hk : 0 < k) (hN : N / 2 ^ k < 2 ^ L.mantissa)
    (hu : 2 ^ k * u = 1 / 2 ^ (L.bias + L.mantissa - 1)) (hX : X = N * u) :
    L.Nearest prefer X (N / 2 ^ k + bump (up (N / 2 ^ k)) N k) := by
  have hpos : 0 < u := by
    refine pos_of_mul_pos_right ?_ (show (0 : ℚ) ≤ 2 ^ k by positivity)
    rw [hu]
    positivity
  have hsize : L.size (N / 2 ^ k) = (N / 2 ^ k : Nat) * (2 ^ k * u) := by
    rw [Layout.size, magnitude_of_lt hN, hu, mul_one_div]
  have hsplit : (N : ℚ) = (N / 2 ^ k : Nat) * 2 ^ k + (N % 2 ^ k : Nat) := by exact_mod_cast (Nat.div_add_mod' N (2 ^ k)).symm
  refine nearest_bump (h.prefer _) hk hpos ?_ ?_
  · rw [hX, hsize, hsplit]
    ring
  · rw [Layout.size, magnitude_succ, Nat.div_eq_of_lt hN, Nat.zero_sub, pow_zero, magnitude_of_lt hN, hsize, hu]
    push_cast
    ring

theorem nearest_high (h : Narrows L prefer up d) (he : d < e) (hm : m < 2 ^ 23)
    (hX : X = (2 ^ 23 + m : Nat) * 2 ^ (e - 1) / 2 ^ 149) :
    let r := (e - d) * 2 ^ L.mantissa + m / 2 ^ (23 - L.mantissa)
    L.Nearest prefer X (r + bump (up r) m (23 - L.mantissa)) := by
  intro r
  obtain ⟨hprefer, hw, hbias, hd, -, -⟩ := h
  have hpow : 2 ^ 23 = 2 ^ L.mantissa * 2 ^ (23 - L.mantissa) := by rw [← pow_add, Nat.add_sub_cancel' (by omega)]
  have hq : m / 2 ^ (23 - L.mantissa) < 2 ^ L.mantissa := by
    rw [Nat.div_lt_iff_lt_mul (Nat.two_pow_pos _), ← hpow]
    exact hm
  have hunit : (2 : ℚ) ^ (23 - L.mantissa) * (2 ^ (e - 1) / 2 ^ 149) =
      2 ^ (e - d - 1) / 2 ^ (L.bias + L.mantissa - 1) := by
    rw [← mul_div_assoc, div_eq_div_iff (by positivity) (by positivity), ← pow_add, ← pow_add, ← pow_add]
    congr 1
    omega
  have hsize : L.size r = (2 ^ L.mantissa + m / 2 ^ (23 - L.mantissa) : Nat) *
      (2 ^ (23 - L.mantissa) * (2 ^ (e - 1) / 2 ^ 149)) := by
    rw [Layout.size, magnitude_fields (by omega) hq, hunit]
    push_cast
    ring
  have hdiv : r / 2 ^ L.mantissa = e - d := (word_fields hq).1
  have hsplit : ((2 ^ 23 + m : Nat) : ℚ) = (2 ^ L.mantissa + m / 2 ^ (23 - L.mantissa) : Nat) *
      2 ^ (23 - L.mantissa) + (m % 2 ^ (23 - L.mantissa) : Nat) := by
    have : 2 ^ 23 + m = (2 ^ L.mantissa + m / 2 ^ (23 - L.mantissa)) * 2 ^ (23 - L.mantissa) +
        m % 2 ^ (23 - L.mantissa) := by rw [Nat.add_mul, ← hpow, Nat.add_assoc, Nat.div_add_mod']
    exact_mod_cast this
  refine nearest_bump (u := 2 ^ (e - 1) / 2 ^ 149) (hprefer _) (by omega) (by positivity) ?_ ?_
  · rw [hX, hsize, hsplit]
    ring
  · rw [hunit, Layout.size, magnitude_succ, hdiv, Layout.size]
    push_cast
    ring

/-- A single's magnitude becomes the nearest one of a narrower format. -/
theorem nearest_narrow (hL : Narrows L prefer up d) (code : Nat) :
    L.Nearest prefer (single.size code) (narrow up L.mantissa d code) := by
  have ⟨_, hw, hbias, hd, hlow, _⟩ := hL
  have hm := Nat.mod_lt code (Nat.two_pow_pos 23)
  have hsplit := Nat.div_add_mod' code (2 ^ 23)
  have hlast : (2 : ℚ) ^ 149 = 2 ^ (149 - (L.bias + L.mantissa - 1)) * 2 ^ (L.bias + L.mantissa - 1) := by
    rw [← pow_add, Nat.sub_add_cancel (by omega)]
  rw [narrow]
  generalize code / 2 ^ 23 = e at hsplit ⊢
  generalize code % 2 ^ 23 = m at hm hsplit ⊢
  subst hsplit
  cases e with
  | zero =>
    have hlt : m < 2 ^ (149 - (L.bias + L.mantissa - 1) - 1) :=
      hm.trans_le (Nat.pow_le_pow_right two_pos (by omega))
    have hlt' := hlt.trans_le (Nat.pow_le_pow_right two_pos (Nat.sub_le _ 1))
    have h := nearest_low (L := L) (N := m) (X := m * (1 / 2 ^ 149)) (k := 149 - (L.bias + L.mantissa - 1)) hL
      (by omega) (by rw [Nat.div_eq_of_lt hlt']; exact Nat.two_pow_pos _)
      (by rw [hlast, mul_one_div, div_mul_eq_div_div, div_self (by positivity)]) rfl
    rw [Nat.div_eq_of_lt hlt', bump, Nat.mod_eq_of_lt hlt', if_neg (by omega)] at h
    rw [if_pos (by omega), Layout.size.eq_1 single, Nat.zero_mul, Nat.zero_add, single, magnitude_of_lt hm, ← mul_one_div]
    exact h
  | succ e =>
    have hX : single.size ((e + 1) * 2 ^ 23 + m) = (2 ^ 23 + m : Nat) * 2 ^ e / 2 ^ 149 := by
      rw [Layout.size, single, magnitude_fields e.succ_pos hm, Nat.succ_sub_one]
      push_cast
      rfl
    rw [hX]
    by_cases hhigh : d < e + 1
    · rw [if_neg (by omega), if_neg (by omega)]
      exact nearest_high hL hhigh hm rfl
    have hunit : (2 : ℚ) ^ (24 - L.mantissa + (d - (e + 1))) * (2 ^ e / 2 ^ 149) = 1 / 2 ^ (L.bias + L.mantissa - 1) := by
      rw [← mul_div_assoc, div_eq_div_iff (by positivity) (by positivity), ← pow_add, ← pow_add, one_mul]
      congr 1
      omega
    have hN : (2 ^ 23 + m) / 2 ^ (24 - L.mantissa + (d - (e + 1))) < 2 ^ L.mantissa := by
      rw [Nat.div_lt_iff_lt_mul (Nat.two_pow_pos _), ← pow_add]
      exact (show 2 ^ 23 + m < 2 ^ 24 by omega).trans_le (Nat.pow_le_pow_right two_pos (by omega))
    have h := nearest_low (X := (2 ^ 23 + m : Nat) * 2 ^ e / 2 ^ 149) hL (by omega) hN hunit (mul_div_assoc _ _ _)
    by_cases hzero : e + 1 + L.mantissa < d
    · have hlt : 2 ^ 23 + m < 2 ^ (24 - L.mantissa + (d - (e + 1)) - 1) :=
        (show 2 ^ 23 + m < 2 ^ 24 by omega).trans_le (Nat.pow_le_pow_right two_pos (by omega))
      have hlt' := hlt.trans_le (Nat.pow_le_pow_right two_pos (Nat.sub_le _ 1))
      rw [Nat.div_eq_of_lt hlt', bump, Nat.mod_eq_of_lt hlt', if_neg (by omega)] at h
      rw [if_pos hzero]
      exact h
    · rw [if_neg hzero, if_pos (by omega)]
      exact h

/-- What is at most the top of the format stays below it, and the sign is put back in front. -/
theorem rounds_narrow {s code top : Nat} (h : Narrows L prefer up d) (hs : s < 2) (hsize : single.size top = L.size L.top)
    (hcode : code ≤ top) :
    Rounds L prefer ((-1) ^ s * single.size code) (s * 2 ^ L.sign + narrow up L.mantissa d code) ∧
      (s * 2 ^ L.sign + narrow up L.mantissa d code) / 2 ^ L.sign = s := by
  have hnear := nearest_narrow h code
  have hle : single.size code ≤ L.size L.top := hsize ▸ single.size_strictMono.monotone hcode
  have htop : narrow up L.mantissa d code ≤ L.top := by
    by_contra hlt
    have hgt := L.size_strictMono (not_le.mp hlt)
    have htopNear := (hnear L.top).1
    rw [abs_of_nonneg (by linarith), abs_of_nonneg (by linarith)] at htopNear
    linarith
  exact ⟨rounds_signed h.top hs htop (single.size_nonneg _) hnear, (word_fields (htop.trans_lt h.top)).1⟩

end Onnxsim.Lib.Minifloats
