import Mathlib.Algebra.Order.Ring.Pow
import Mathlib.Tactic.Linarith
import Mathlib.Tactic.Positivity
import Mathlib.Tactic.Ring

namespace Onnxsim.Lib.PartialSums

open List

variable {α κ : Type} [AddCommGroup α] [LinearOrder α] [IsOrderedAddMonoid α]

theorem abs_sum_le (l : List α) : |l.sum| ≤ (l.map abs).sum := by
  simpa using Multiset.abs_sum_le_sum_abs (s := (l : Multiset α))

/-- A sum of some of the terms, in whatever order they are added, is bounded by the magnitudes of all. -/
theorem abs_sum_le_of_subperm {l m : List α} (h : l.Subperm m) : |l.sum| ≤ (m.map abs).sum := by
  obtain ⟨l', hperm, hsub⟩ := h
  rw [← hperm.sum_eq]
  refine (abs_sum_le l').trans ((hsub.map abs).sum_le_sum fun a ha => ?_)
  obtain ⟨b, -, rfl⟩ := List.mem_map.mp ha
  exact abs_nonneg b

theorem sum_map_nonneg {ks : List κ} {f : κ → α} (h : ∀ k, 0 ≤ f k) : 0 ≤ (ks.map f).sum :=
  List.sum_nonneg (by simpa using fun k _ => h k)

theorem sum_range_le {f : Nat → α} (hf : ∀ k, 0 ≤ f k) {n : Nat} (hn : ∀ k, n ≤ k → f k = 0) (m : Nat) :
    ((List.range m).map f).sum ≤ ((List.range n).map f).sum := by
  induction m with
  | zero => exact sum_map_nonneg hf
  | succ m ih =>
    by_cases hm : n ≤ m
    · rw [range_succ, map_append, sum_append, map_singleton, sum_singleton, hn m hm, add_zero]
      exact ih
    · have hsub : (List.range (m + 1)).Sublist (List.range n) := range_sublist.mpr (by omega)
      refine (hsub.map f).sum_le_sum fun a ha => ?_
      obtain ⟨k, -, rfl⟩ := List.mem_map.mp ha
      exact hf k

variable {β : Type} [LinearOrder β]

theorem start_le_foldl_max (b : β) (l : List β) : b ≤ l.foldl max b := by
  induction l generalizing b with
  | nil => exact le_rfl
  | cons a l ih => exact (le_max_left b a).trans (ih (max b a))

theorem le_foldl_max {l : List β} {a : β} (ha : a ∈ l) (b : β) : a ≤ l.foldl max b := by
  induction l generalizing b with
  | nil => cases ha
  | cons c l ih =>
    rcases mem_cons.mp ha with rfl | ha
    · exact (le_max_right b a).trans (start_le_foldl_max (max b a) l)
    · exact ih ha (max b c)

end Onnxsim.Lib.PartialSums

namespace Onnxsim.Lib.Roundings

open List PartialSums

variable {F : Type} [Field F] [LinearOrder F] [IsStrictOrderedRing F]

/-- An addition whose result is within `u` of the exact one, relatively. -/
def Relative (u : F) (add : F → F → F) : Prop := ∀ x y, |add x y - (x + y)| ≤ u * |x + y|

/-- A sum in some order: every term goes into one addition tree. -/
inductive Accumulates (add : F → F → F) : List F → F → Prop where
  | nil : Accumulates add [] 0
  | single (x : F) : Accumulates add [x] x
  | join {l m k : List F} {s t : F} : l ≠ [] → m ≠ [] → Accumulates add l s → Accumulates add m t →
      k.Perm (l ++ m) → Accumulates add k (add s t)

variable {k j : Nat} {l ss : List F} {ls : List (List F)} {x y : F}

section

variable {u : F} (hu : 0 ≤ u)

include hu

theorem one_le_pow (k : Nat) : 1 ≤ (1 + u) ^ k := one_le_pow₀ (by linarith)

theorem pow_mono (h : j ≤ k) : (1 + u) ^ j ≤ (1 + u) ^ k :=
  pow_le_pow_right₀ (by linarith) h

theorem one_add_pow_mul_le (n : Nat) : (1 + u) ^ n * (1 - n * u) ≤ 1 := by
  induction n with
  | zero => simp
  | succ n ih =>
    have hsquare : (1 + u) ^ (n + 1) * (1 - (n + 1 : Nat) * u) =
        (1 + u) ^ n * (1 - n * u) - (1 + u) ^ n * ((n + 1) * u ^ 2) := by
      push_cast
      ring
    rw [hsquare]
    have hterm : 0 ≤ (1 + u) ^ n * ((n + 1) * u ^ 2) := by positivity
    linarith

end

theorem one_sub_mul_le_pow {u : F} (hu : u ≤ 1) (n : Nat) : 1 - n * u ≤ (1 - u) ^ n := by
  have h := one_add_mul_le_pow (a := -u) (by linarith) n
  rw [← sub_eq_add_neg] at h
  linarith

section

variable {u : F} {add : F → F → F}

/-- Within `k` roundings of the exact sum. -/
def Rounded (u : F) (k : Nat) (l : List F) (s : F) : Prop :=
  |s - l.sum| ≤ ((1 + u) ^ k - 1) * (l.map abs).sum

theorem sum_abs_nonneg (l : List F) : 0 ≤ (l.map abs).sum := by
  refine sum_nonneg fun x hx => ?_
  obtain ⟨y, -, rfl⟩ := List.mem_map.mp hx
  exact abs_nonneg y

variable {s : F} {m : List F}

theorem Rounded.mono (hu : 0 ≤ u) (hjk : j ≤ k) (h : Rounded u j l s) : Rounded u k l s := by
  refine h.trans (mul_le_mul_of_nonneg_right ?_ (sum_abs_nonneg l))
  have := pow_mono hu hjk
  linarith

theorem Rounded.abs_le (h : Rounded u k l s) : |s| ≤ (1 + u) ^ k * (l.map abs).sum := by
  have hsum := abs_sum_le l
  have htriangle : |s| ≤ |s - l.sum| + |l.sum| := by
    calc |s| = |(s - l.sum) + l.sum| := by rw [sub_add_cancel]
      _ ≤ |s - l.sum| + |l.sum| := abs_add_le _ _
  rw [Rounded, sub_mul, one_mul] at h
  linarith

theorem Rounded.join {t : F} (hadd : Relative u add) (hu : 0 ≤ u) (hl : Rounded u j l s) (hm : Rounded u k m t) :
    Rounded u (max j k + 1) (l ++ m) (add s t) := by
  have hl' := hl.mono hu (le_max_left j k)
  have hm' := hm.mono hu (le_max_right j k)
  have hstep := hadd s t
  have habs : |s + t| ≤ (1 + u) ^ max j k * ((l.map abs).sum + (m.map abs).sum) := by
    calc |s + t| ≤ |s| + |t| := abs_add_le s t
      _ ≤ (1 + u) ^ max j k * (l.map abs).sum + (1 + u) ^ max j k * (m.map abs).sum :=
        add_le_add hl'.abs_le hm'.abs_le
      _ = _ := by ring
  have hmul : u * |s + t| ≤ u * ((1 + u) ^ max j k * ((l.map abs).sum + (m.map abs).sum)) :=
    mul_le_mul_of_nonneg_left habs hu
  rw [Rounded] at hl' hm' ⊢
  rw [sum_append, map_append, sum_append]
  have hsplit : add s t - (l.sum + m.sum) = (add s t - (s + t)) + ((s - l.sum) + (t - m.sum)) := by ring
  have htriangle : |add s t - (l.sum + m.sum)| ≤ |add s t - (s + t)| + (|s - l.sum| + |t - m.sum|) := by
    rw [hsplit]
    exact (abs_add_le _ _).trans (add_le_add_right (abs_add_le _ _) _)
  calc |add s t - (l.sum + m.sum)|
      ≤ u * ((1 + u) ^ max j k * ((l.map abs).sum + (m.map abs).sum)) +
          (((1 + u) ^ max j k - 1) * (l.map abs).sum + ((1 + u) ^ max j k - 1) * (m.map abs).sum) := by
        linarith
    _ = ((1 + u) ^ (max j k + 1) - 1) * ((l.map abs).sum + (m.map abs).sum) := by ring

omit [IsStrictOrderedRing F] in
theorem Rounded.perm (h : Rounded u k l s) (hperm : m.Perm l) : Rounded u k m s := by
  rw [Rounded, hperm.sum_eq, (hperm.map abs).sum_eq]
  exact h

theorem Accumulates.rounded (hadd : Relative u add) (hu : 0 ≤ u) (h : Accumulates add l s) :
    Rounded u (l.length - 1) l s := by
  induction h with
  | nil => simp [Rounded]
  | single x => simp [Rounded]
  | @join l m k s t hl hm _ _ hperm ihl ihm =>
    have hlength : max (l.length - 1) (m.length - 1) + 1 ≤ k.length - 1 := by
      have := length_pos_of_ne_nil hl
      have := length_pos_of_ne_nil hm
      rw [hperm.length_eq, length_append]
      omega
    exact ((Rounded.join hadd hu ihl ihm).perm hperm).mono hu hlength

theorem Rounded.flatten (hu : 0 ≤ u) (hls : List.Forall₂ (Rounded u j) ls ss) (h : Rounded u k ss s) :
    Rounded u (j + k) ls.flatten s := by
  have hparts : |ss.sum - ls.flatten.sum| ≤ ((1 + u) ^ j - 1) * (ls.flatten.map abs).sum ∧
      (ss.map abs).sum ≤ (1 + u) ^ j * (ls.flatten.map abs).sum := by
    clear h
    induction hls with
    | nil => simp
    | @cons l t ls ss hl _ ih =>
      rw [flatten_cons, sum_cons, sum_append, map_append, sum_append, map_cons,
        sum_cons]
      constructor
      · have hsplit : t + ss.sum - (l.sum + ls.flatten.sum) = (t - l.sum) + (ss.sum - ls.flatten.sum) := by ring
        rw [hsplit, mul_add]
        exact (abs_add_le _ _).trans (add_le_add hl ih.1)
      · rw [mul_add]
        exact add_le_add hl.abs_le ih.2
  have hone := one_le_pow hu k
  have hsplit : s - ls.flatten.sum = (s - ss.sum) + (ss.sum - ls.flatten.sum) := by ring
  rw [Rounded] at h ⊢
  rw [hsplit]
  calc |(s - ss.sum) + (ss.sum - ls.flatten.sum)|
      ≤ |s - ss.sum| + |ss.sum - ls.flatten.sum| := abs_add_le _ _
    _ ≤ ((1 + u) ^ k - 1) * ((1 + u) ^ j * (ls.flatten.map abs).sum) +
          ((1 + u) ^ j - 1) * (ls.flatten.map abs).sum := by
        refine add_le_add (h.trans (mul_le_mul_of_nonneg_left hparts.2 ?_)) hparts.1
        linarith
    _ = ((1 + u) ^ (j + k) - 1) * (ls.flatten.map abs).sum := by rw [pow_add]; ring

/-- A computed sum of nonnegative terms that has lost at most `k` roundings. -/
def Lower (u : F) (k : Nat) (l : List F) (s : F) : Prop := 0 ≤ s ∧ (1 - u) ^ k * l.sum ≤ s

theorem le_add_of_relative (hadd : Relative u add) (hx : 0 ≤ x) (hy : 0 ≤ y) : (1 - u) * (x + y) ≤ add x y := by
  have hsum : 0 ≤ x + y := add_nonneg hx hy
  have h := (abs_le.mp (hadd x y)).1
  rw [abs_of_nonneg hsum] at h
  linarith

theorem Lower.mono {s : F} (hu : 0 ≤ u) (hu' : u ≤ 1) (hl : ∀ x ∈ l, 0 ≤ x) (hjk : j ≤ k) (h : Lower u j l s) :
    Lower u k l s := by
  refine ⟨h.1, le_trans (mul_le_mul_of_nonneg_right ?_ (sum_nonneg hl)) h.2⟩
  exact pow_le_pow_of_le_one (by linarith) (by linarith) hjk

theorem Accumulates.lower (hadd : Relative u add) (hu : 0 ≤ u) (hu' : u ≤ 1) {s : F} (hl : ∀ x ∈ l, 0 ≤ x)
    (h : Accumulates add l s) : Lower u (l.length - 1) l s := by
  induction h with
  | nil => simp [Lower]
  | single x => simpa [Lower] using hl x (mem_singleton_self x)
  | @join l m k s t hln hmn _ _ hperm ihl ihm =>
    have hl' : ∀ x ∈ l, 0 ≤ x := fun x hx => hl x (hperm.mem_iff.mpr (mem_append_left _ hx))
    have hm' : ∀ x ∈ m, 0 ≤ x := fun x hx => hl x (hperm.mem_iff.mpr (mem_append_right _ hx))
    have hlength : max (l.length - 1) (m.length - 1) + 1 ≤ k.length - 1 := by
      have := length_pos_of_ne_nil hln
      have := length_pos_of_ne_nil hmn
      rw [hperm.length_eq, length_append]
      omega
    obtain ⟨hs, hsl⟩ := (ihl hl').mono hu hu' hl' (le_max_left (l.length - 1) (m.length - 1))
    obtain ⟨ht, htm⟩ := (ihm hm').mono hu hu' hm' (le_max_right (l.length - 1) (m.length - 1))
    have hstep := le_add_of_relative hadd hs ht
    have hjoin : Lower u (max (l.length - 1) (m.length - 1) + 1) k (add s t) := by
      refine ⟨le_trans (mul_nonneg (by linarith) (add_nonneg hs ht)) hstep, ?_⟩
      rw [hperm.sum_eq, sum_append]
      calc (1 - u) ^ (max (l.length - 1) (m.length - 1) + 1) * (l.sum + m.sum)
          = (1 - u) * ((1 - u) ^ max (l.length - 1) (m.length - 1) * l.sum +
              (1 - u) ^ max (l.length - 1) (m.length - 1) * m.sum) := by ring
        _ ≤ (1 - u) * (s + t) := mul_le_mul_of_nonneg_left (add_le_add hsl htm) (by linarith)
        _ ≤ add s t := hstep
    exact hjoin.mono hu hu' hl hlength

theorem Lower.flatten {s : F} (hu' : u ≤ 1) (hls : List.Forall₂ (Lower u j) ls ss) (h : Lower u k ss s) :
    Lower u (j + k) ls.flatten s := by
  have hparts : (1 - u) ^ j * ls.flatten.sum ≤ ss.sum := by
    clear h
    induction hls with
    | nil => simp
    | cons hl _ ih =>
      rw [flatten_cons, sum_append, sum_cons, mul_add]
      exact add_le_add hl.2 ih
  refine ⟨h.1, le_trans ?_ h.2⟩
  rw [pow_add, mul_comm ((1 - u) ^ j), mul_assoc]
  exact mul_le_mul_of_nonneg_left hparts (pow_nonneg (by linarith) k)

end

/-- `t` is a computed value of `T` that has lost at most `m` roundings by `u` and `L` underflows by `h`. -/
def Under (u h m L T t : F) : Prop := 0 ≤ t ∧ (1 - m * u) * T - L * h ≤ t

/-- A multiplication of nonnegative numbers that may underflow. -/
structure Products (u h : F) (mul : F → F → F) : Prop where
  nonneg : ∀ x y, 0 ≤ x → 0 ≤ y → 0 ≤ mul x y
  error : ∀ x y, |mul x y - x * y| ≤ u * |x * y| + h

variable {u h m m' s c L L' S T t : F} {add mul : F → F → F}

omit [IsStrictOrderedRing F] in
theorem Under.exact (hx : 0 ≤ x) : Under u h 0 0 x x := by
  refine ⟨hx, le_of_eq ?_⟩
  ring

omit [IsStrictOrderedRing F] in
theorem Under.zero (ht : 0 ≤ t) : Under u h m 0 0 t := by
  refine ⟨ht, ?_⟩
  rw [mul_zero, zero_mul, sub_zero]
  exact ht

theorem Under.mono (hu : 0 ≤ u) (hh : 0 ≤ h) (hT : 0 ≤ T) (hm : m ≤ m') (hL : L ≤ L') (ht : Under u h m L T t) :
    Under u h m' L' T t := by
  refine ⟨ht.1, le_trans ?_ ht.2⟩
  have hroundings : (1 - m' * u) * T ≤ (1 - m * u) * T :=
    mul_le_mul_of_nonneg_right (by linarith [mul_le_mul_of_nonneg_right hm hu]) hT
  have hunderflows : L * h ≤ L' * h := mul_le_mul_of_nonneg_right hL hh
  linarith

theorem one_sub_le_mul {a b : F} (ha : 0 ≤ a) (hb : 0 ≤ b) : 1 - (a + b) ≤ (1 - a) * (1 - b) := by
  have := mul_nonneg ha hb
  linarith [show (1 - a) * (1 - b) = 1 - (a + b) + a * b by ring]

theorem Under.plus (hadd : Relative u add) (hu : 0 ≤ u) (hu' : u ≤ 1) (hh : 0 ≤ h) (hm : 0 ≤ m) (hL : 0 ≤ L)
    (hL' : 0 ≤ L') (hS : 0 ≤ S) (hT : 0 ≤ T) (hs : Under u h m L S s) (ht : Under u h m L' T t) :
    Under u h (m + 1) (L + L') (S + T) (add s t) := by
  have hstep := le_add_of_relative hadd hs.1 ht.1
  refine ⟨le_trans (mul_nonneg (by linarith) (add_nonneg hs.1 ht.1)) hstep, le_trans ?_ hstep⟩
  have hlosses : 0 ≤ u * ((L + L') * h) := by positivity
  have hround := mul_le_mul_of_nonneg_right (one_sub_le_mul (mul_nonneg hm hu) hu) (add_nonneg hS hT)
  calc (1 - (m + 1) * u) * (S + T) - (L + L') * h
      ≤ (1 - m * u) * (1 - u) * (S + T) - (L + L') * h + u * ((L + L') * h) := by
        have : (1 - (m + 1) * u) * (S + T) = (1 - (m * u + u)) * (S + T) := by ring
        linarith
    _ = (1 - u) * (((1 - m * u) * S - L * h) + ((1 - m * u) * T - L' * h)) := by ring
    _ ≤ (1 - u) * (s + t) := mul_le_mul_of_nonneg_left (add_le_add hs.2 ht.2) (by linarith)

theorem le_mul_of_products (hmul : Products u h mul) (hx : 0 ≤ x) (hy : 0 ≤ y) : (1 - u) * (x * y) - h ≤ mul x y := by
  have hbound := (abs_le.mp (hmul.error x y)).1
  rw [abs_of_nonneg (mul_nonneg hx hy)] at hbound
  linarith

theorem Under.times (hmul : Products u h mul) (hu : 0 ≤ u) (hu' : u ≤ 1) (hh : 0 ≤ h) (hm : 0 ≤ m)
    (hs : 0 ≤ s) (hsu : s * u ≤ 1) (hL : 0 ≤ L) (hT : 0 ≤ T) (hc : 0 ≤ c) (hĉ : (1 - s * u) * c ≤ ĉ)
    (ht : Under u h m L T t) : Under u h (m + s + 1) (L * c + 1) (T * c) (mul t ĉ) := by
  have hfactor : 0 ≤ (1 - s * u) * c := mul_nonneg (by linarith) hc
  have hĉ0 : 0 ≤ ĉ := hfactor.trans hĉ
  refine ⟨hmul.nonneg t ĉ ht.1 hĉ0, le_trans ?_ (le_mul_of_products hmul ht.1 hĉ0)⟩
  have hrounds : 1 - (m + s + 1) * u ≤ (1 - u) * ((1 - s * u) * (1 - m * u)) := by
    have h₁ := one_sub_le_mul (mul_nonneg hs hu) (mul_nonneg hm hu)
    have h₂ := one_sub_le_mul hu (add_nonneg (mul_nonneg hs hu) (mul_nonneg hm hu))
    calc 1 - (m + s + 1) * u = 1 - (u + (s * u + m * u)) := by ring
      _ ≤ (1 - u) * (1 - (s * u + m * u)) := h₂
      _ ≤ (1 - u) * ((1 - s * u) * (1 - m * u)) := mul_le_mul_of_nonneg_left h₁ (by linarith)
  have hlosses : (1 - u) * ((1 - s * u) * (L * c * h)) ≤ L * c * h := by
    have hpos : 0 ≤ L * c * h := by positivity
    have h₁ : (1 - s * u) * (L * c * h) ≤ L * c * h := by
      linarith [mul_nonneg (mul_nonneg hs hu) hpos]
    have h₂ : 0 ≤ (1 - s * u) * (L * c * h) := mul_nonneg (by linarith) hpos
    linarith [mul_nonneg hu h₂]
  have hround := mul_le_mul_of_nonneg_right hrounds (mul_nonneg hT hc)
  calc (1 - (m + s + 1) * u) * (T * c) - (L * c + 1) * h
      ≤ (1 - u) * ((1 - s * u) * (1 - m * u)) * (T * c) - (1 - u) * ((1 - s * u) * (L * c * h)) - h := by linarith
    _ = (1 - u) * ((1 - s * u) * c * ((1 - m * u) * T - L * h)) - h := by ring
    _ ≤ (1 - u) * ((1 - s * u) * c * t) - h := by
        have := mul_le_mul_of_nonneg_left ht.2 hfactor
        have := mul_le_mul_of_nonneg_left this (by linarith : 0 ≤ 1 - u)
        linarith
    _ ≤ (1 - u) * (t * ĉ) - h := by
        have := mul_le_mul_of_nonneg_right hĉ ht.1
        have := mul_le_mul_of_nonneg_left this (by linarith : 0 ≤ 1 - u)
        linarith

theorem Under.sum {ι : Type} (hu : 0 ≤ u) (hu' : u ≤ 1) (hh : 0 ≤ h) (hm : 0 ≤ m) (hmu : m * u ≤ 1) {l : List ι}
    {f g L : ι → F} (hL : ∀ i ∈ l, 0 ≤ L i) (hg : ∀ i ∈ l, 0 ≤ g i) (h' : ∀ i ∈ l, Under u h m (L i) (g i) (f i))
    {s : F} (hs : Lower u k (l.map f) s) :
    Under u h (m + k) (l.map L).sum (l.map g).sum s := by
  refine ⟨hs.1, le_trans ?_ hs.2⟩
  have hterms : (1 - m * u) * (l.map g).sum - (l.map L).sum * h ≤ (l.map f).sum := by
    clear hs
    induction l with
    | nil => simp
    | cons i l ih =>
      have hrest := ih (fun j hj => hL j (mem_cons_of_mem _ hj)) (fun j hj => hg j (mem_cons_of_mem _ hj))
        (fun j hj => h' j (mem_cons_of_mem _ hj))
      have hhead := (h' i mem_cons_self).2
      simp only [map_cons, sum_cons]
      linarith
  have hgsum : 0 ≤ (l.map g).sum := sum_nonneg fun x hx => by
    obtain ⟨i, hi, rfl⟩ := List.mem_map.mp hx
    exact hg i hi
  have hLsum : 0 ≤ (l.map L).sum := sum_nonneg fun x hx => by
    obtain ⟨i, hi, rfl⟩ := List.mem_map.mp hx
    exact hL i hi
  have hpow : (1 - u) ^ k ≤ 1 := pow_le_one₀ (by linarith) (by linarith)
  have hpow' : 0 ≤ (1 - u) ^ k := pow_nonneg (by linarith) k
  have hround : 1 - (m + k) * u ≤ (1 - u) ^ k * (1 - m * u) := by
    have h₁ := one_sub_le_mul (a := k * u) (b := m * u) (by positivity) (mul_nonneg hm hu)
    have h₂ := mul_le_mul_of_nonneg_right (one_sub_mul_le_pow hu' k) (by linarith : 0 ≤ 1 - m * u)
    calc 1 - (m + k) * u = 1 - (k * u + m * u) := by ring
      _ ≤ (1 - k * u) * (1 - m * u) := h₁
      _ ≤ _ := h₂
  have hlosses : (1 - u) ^ k * ((l.map L).sum * h) ≤ (l.map L).sum * h :=
    mul_le_of_le_one_left (by positivity) hpow
  have hterms' := mul_le_mul_of_nonneg_left hterms hpow'
  have hround' := mul_le_mul_of_nonneg_right hround hgsum
  calc (1 - (m + k) * u) * (l.map g).sum - (l.map L).sum * h
      ≤ (1 - u) ^ k * (1 - m * u) * (l.map g).sum - (1 - u) ^ k * ((l.map L).sum * h) := by linarith
    _ = (1 - u) ^ k * ((1 - m * u) * (l.map g).sum - (l.map L).sum * h) := by ring
    _ ≤ (1 - u) ^ k * (l.map f).sum := hterms'

/-- Inflating by `c` and adding the floor `2 h` covers the roundings and one underflow. -/
theorem Under.inflate (hadd : Relative u add) (hmul : Products u h mul) (hu : 0 ≤ u) (hu' : u ≤ 1) (hh : 0 ≤ h)
    (hm : 0 ≤ m) (hs : 0 ≤ s) (hsu : s * u ≤ 1) (hL : 0 ≤ L) (hT : 0 ≤ T) (hc : 0 ≤ c)
    (hĉ : (1 - s * u) * c ≤ ĉ) (ht : Under u h m L T t) :
    (1 - u) * (2 * h) ≤ add (mul t ĉ) (2 * h) ∧
      c * (1 - (m + s + 2) * u) * T - (c * L - 1 + u) * h ≤ add (mul t ĉ) (2 * h) := by
  have hmulled := ht.times hmul hu hu' hh hm hs hsu hL hT hc hĉ
  have hstep := le_add_of_relative hadd hmulled.1 (by linarith : 0 ≤ 2 * h)
  have hpos : 0 ≤ (1 - u) * mul t ĉ := mul_nonneg (by linarith) hmulled.1
  refine ⟨by linarith [mul_add (1 - u) (mul t ĉ) (2 * h)], le_trans ?_ hstep⟩
  have hround := one_sub_le_mul (a := (m + s + 1) * u) (b := u) (by positivity) hu
  have hround' := mul_le_mul_of_nonneg_right hround (mul_nonneg hT hc)
  have hlower := mul_le_mul_of_nonneg_left hmulled.2 (by linarith : 0 ≤ 1 - u)
  have hlosses : 0 ≤ u * (L * c * h) := by positivity
  calc c * (1 - (m + s + 2) * u) * T - (c * L - 1 + u) * h
      = (1 - ((m + s + 1) * u + u)) * (T * c) - L * c * h + (1 - u) * h := by ring
    _ ≤ (1 - (m + s + 1) * u) * (1 - u) * (T * c) - L * c * h + (1 - u) * h := by linarith
    _ ≤ (1 - u) * ((1 - (m + s + 1) * u) * (T * c) - (L * c + 1) * h) + (1 - u) * (2 * h) := by linarith
    _ ≤ (1 - u) * mul t ĉ + (1 - u) * (2 * h) := by linarith
    _ = (1 - u) * (mul t ĉ + 2 * h) := by ring

end Onnxsim.Lib.Roundings
