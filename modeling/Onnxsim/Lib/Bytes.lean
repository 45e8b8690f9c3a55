import Mathlib.Data.Nat.Digits.Lemmas

namespace Onnxsim.Lib.Bytes

open List

instance neZero_256 : NeZero 256 := ⟨by decide⟩

abbrev Byte := Fin 256
abbrev ByteString := List Byte

/-- The `k` low-order bytes of `n`, least significant first. -/
def leBytes : Nat → Nat → ByteString
  | 0, _ => []
  | k + 1, n => Fin.ofNat 256 n :: leBytes k (n / 256)

def ofLE : ByteString → Nat
  | [] => 0
  | b :: bs => b.val + 256 * ofLE bs

@[simp] theorem leBytes_length (k n : Nat) : (leBytes k n).length = k := by
  induction k generalizing n with
  | zero => rfl
  | succ k ih => simp [leBytes, ih]

theorem ofLE_leBytes (k n : Nat) : ofLE (leBytes k n) = n % 256 ^ k := by
  induction k generalizing n with
  | zero => simp [leBytes, ofLE, Nat.mod_one]
  | succ k ih =>
    simp only [leBytes, ofLE, ih, Fin.ofNat]
    rw [Nat.pow_succ, Nat.mul_comm (256 ^ k), Nat.mod_mul]

variable {n k : Nat} {c : Byte}

theorem ofLE_leBytes_of_lt (h : n < 256 ^ k) : ofLE (leBytes k n) = n := by
  rw [ofLE_leBytes, Nat.mod_eq_of_lt h]

theorem ofLE_lt (bs : ByteString) : ofLE bs < 256 ^ bs.length := by
  induction bs with
  | nil => decide
  | cons b bs ih =>
    have hb := b.isLt
    rw [ofLE, length_cons, Nat.pow_succ]
    omega

theorem leBytes_ofLE (bs : ByteString) : leBytes bs.length (ofLE bs) = bs := by
  induction bs with
  | nil => rfl
  | cons b bs ih =>
    have hb := b.isLt
    rw [length_cons, leBytes, ofLE, Nat.add_mul_div_left _ _ (by decide), Nat.div_eq_of_lt hb, Nat.zero_add, ih]
    congr 1
    apply Fin.ext
    simp only [Fin.ofNat]
    omega

/-- The `k` low-order bytes of `n`, most significant first. -/
def beBytes (k n : Nat) : ByteString := (leBytes k n).reverse

def ofBE (bs : ByteString) : Nat := ofLE bs.reverse

@[simp] theorem beBytes_length (k n : Nat) : (beBytes k n).length = k := by
  rw [beBytes, length_reverse, leBytes_length]

theorem ofBE_beBytes_of_lt (h : n < 256 ^ k) : ofBE (beBytes k n) = n := by
  rw [ofBE, beBytes, reverse_reverse, ofLE_leBytes_of_lt h]

theorem beBytes_ofBE (bs : ByteString) : beBytes bs.length (ofBE bs) = bs := by
  rw [beBytes, ofBE, ← length_reverse, leBytes_ofLE, reverse_reverse]

theorem ofBE_lt (bs : ByteString) : ofBE bs < 256 ^ bs.length := by
  rw [ofBE, ← length_reverse]
  exact ofLE_lt _

def digitByte (d : Nat) : Byte := Fin.ofNat 256 (48 + d)

def isDigit (c : Byte) : Bool := 48 ≤ c.val && c.val ≤ 57

/-- Plain decimal text of a natural number, no leading zeros. -/
def decimal (n : Nat) : ByteString :=
  if n = 0 then [48] else (Nat.digits 10 n).reverse.map digitByte

def decimalInt (i : Int) : ByteString :=
  if i < 0 then 45 :: decimal i.natAbs else decimal i.natAbs

def digitsValue (ds : ByteString) : Nat :=
  ds.foldl (fun acc c => acc * 10 + (c.val - 48)) 0

theorem digitByte_val {d : Nat} (h : d < 10) : (digitByte d).val = 48 + d := by
  simp only [digitByte, Fin.ofNat]
  omega

theorem foldl_digitByte (ds : List Nat) (h : ∀ d ∈ ds, d < 10) :
    ((ds.reverse.map digitByte).foldl (fun acc c => acc * 10 + (c.val - 48)) 0) =
      Nat.ofDigits 10 ds := by
  induction ds with
  | nil => rfl
  | cons d ds ih =>
    have hd := h d mem_cons_self
    rw [reverse_cons, map_append, foldl_append,
      ih fun d' hd' => h d' (mem_cons_of_mem _ hd')]
    simp only [map_cons, map_nil, foldl_cons, foldl_nil, digitByte_val hd,
      Nat.ofDigits_cons]
    omega

theorem digitsValue_decimal (n : Nat) : digitsValue (decimal n) = n := by
  by_cases hn : n = 0
  · subst hn
    rfl
  · rw [digitsValue, decimal, if_neg hn,
      foldl_digitByte _ fun d hd => Nat.digits_lt_base (by omega) hd, Nat.ofDigits_digits]

theorem decimal_isDigit (h : c ∈ decimal n) : isDigit c = true := by
  by_cases hn : n = 0
  · simp only [decimal, hn, if_true, mem_singleton] at h
    subst h
    rfl
  · simp only [decimal, hn, if_false, List.mem_map, mem_reverse] at h
    obtain ⟨d, hd, rfl⟩ := h
    have hlt : d < 10 := Nat.digits_lt_base (by omega) hd
    simp only [isDigit, digitByte_val hlt, Bool.and_eq_true, decide_eq_true_eq]
    omega

theorem notMem_decimal (hc : isDigit c = false) (n : Nat) : c ∉ decimal n := by
  intro hm
  rw [decimal_isDigit hm] at hc
  cases hc

theorem mem_decimalInt {d : Int} (h : c ∈ decimalInt d) : c = 45 ∨ isDigit c = true := by
  rw [decimalInt] at h
  split at h
  · exact (mem_cons.mp h).imp_right decimal_isDigit
  · exact .inr (decimal_isDigit h)

theorem notMem_decimalInt (hc : isDigit c = false) (hm : c ≠ 45) (d : Int) : c ∉ decimalInt d := by
  intro h
  rcases mem_decimalInt h with rfl | hd
  · exact hm rfl
  · rw [hd] at hc
    cases hc

theorem decimal_ne_nil (n : Nat) : decimal n ≠ [] := by
  by_cases hn : n = 0
  · simp [decimal, hn]
  · simp [decimal, hn, Nat.digits_ne_nil_iff_ne_zero]

/-- Pad on the right with `c` up to the next multiple of `k`. -/
def padTo (k : Nat) (c : Byte) (s : ByteString) : ByteString :=
  s ++ List.replicate ((k - s.length % k) % k) c

end Onnxsim.Lib.Bytes
