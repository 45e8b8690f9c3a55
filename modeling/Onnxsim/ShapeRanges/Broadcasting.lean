import Mathlib.Algebra.BigOperators.Group.List.Basic
import Mathlib.Algebra.Order.Group.Nat
import Mathlib.Data.Option.NAry

namespace Onnxsim.ShapeRanges.Dims

open Option

/-- One dimension: a number in `[lo, hi]`, unbounded above without `hi`. Two dimensions of one name are
the same number at run time. -/
structure Dim where
  lo : Nat
  hi : Option Nat
  sym : Option String
  nonempty : ∀ h ∈ hi, lo ≤ h

abbrev Shape := List Dim

/-- What a rule raises; `index`, `stop` and `overflow` are the interpreter's errors for a missing list
entry, an iterator that has ended and an infinity made an integer. -/
inductive RuleError where
  | emptyRange (lo : Nat) (hi : Int)
  | axisRange (axis : Int) (rank : Nat)
  | index
  | stop
  | overflow
deriving DecidableEq, Repr

theorem toNat_le_of_bound {lo h : Int} (hle : (lo.toNat : Int) ≤ h) : ∀ k ∈ some h.toNat, lo.toNat ≤ k := by
  intro k hk
  cases hk
  omega

/-- A lower end below zero becomes zero; an empty range is refused. -/
def newDim (lo : Int) (hi : Option Int) : Except RuleError Dim :=
  match hi with
  | none => .ok ⟨lo.toNat, none, none, by simp⟩
  | some h =>
    if hle : (lo.toNat : Int) ≤ h then
      .ok ⟨lo.toNat, some h.toNat, none, toNat_le_of_bound hle⟩
    else .error (.emptyRange lo.toNat h)

def exact (n : Nat) : Dim := ⟨n, some n, none, by simp⟩

def Dim.isExact (d : Dim) : Bool := d.hi = some d.lo

def Dim.contains (d : Dim) (n : Nat) : Bool := d.lo ≤ n && d.hi.all fun h => n ≤ h

def addHi (a b : Option Nat) : Option Nat := Option.map₂ (fun a b => a + b) a b

def mulHi (a b : Option Nat) : Option Nat :=
  if a = some 0 ∨ b = some 0 then some 0 else Option.map₂ (fun a b => a * b) a b

def minHi : Option Nat → Option Nat → Option Nat
  | none, b => b
  | a, none => a
  | some a, some b => some (min a b)

def maxHi (a b : Option Nat) : Option Nat := Option.map₂ (fun a b => max a b) a b

theorem le_addHi {a b : Nat} {ah bh : Option Nat} (ha : ∀ h ∈ ah, a ≤ h) (hb : ∀ h ∈ bh, b ≤ h) :
    ∀ h ∈ addHi ah bh, a + b ≤ h := by
  intro h hh
  obtain ⟨p, q, hp, hq, rfl⟩ := mem_map₂_iff.mp hh
  exact Nat.add_le_add (ha p hp) (hb q hq)

theorem le_mulHi {a b : Nat} {ah bh : Option Nat} (ha : ∀ h ∈ ah, a ≤ h) (hb : ∀ h ∈ bh, b ≤ h) :
    ∀ h ∈ mulHi ah bh, a * b ≤ h := by
  intro h hh
  rw [mulHi] at hh
  split at hh
  · next hzero =>
    rcases hzero with hz | hz
    · have h0 : a = 0 := Nat.le_zero.mp (ha 0 hz)
      simp [h0]
    · have h0 : b = 0 := Nat.le_zero.mp (hb 0 hz)
      simp [h0]
  · obtain ⟨p, q, hp, hq, rfl⟩ := mem_map₂_iff.mp hh
    exact Nat.mul_le_mul (ha p hp) (hb q hq)

theorem le_minHi {a : Nat} {ah bh : Option Nat} (ha : ∀ h ∈ ah, a ≤ h) (hb : ∀ h ∈ bh, a ≤ h) :
    ∀ h ∈ minHi ah bh, a ≤ h := by
  cases ah with
  | none => exact hb
  | some p =>
    cases bh with
    | none => exact ha
    | some q =>
      intro h hh
      cases hh
      exact le_min (ha p rfl) (hb q rfl)

theorem le_maxHi {a : Nat} {ah bh : Option Nat} (h : (∀ h ∈ ah, a ≤ h) ∨ ∀ h ∈ bh, a ≤ h) :
    ∀ h ∈ maxHi ah bh, a ≤ h := by
  intro k hk
  obtain ⟨p, q, hp, hq, rfl⟩ := mem_map₂_iff.mp hk
  rcases h with h | h
  · exact (h p hp).trans (le_max_left p q)
  · exact (h q hq).trans (le_max_right p q)

def Dim.add (a b : Dim) : Dim := ⟨a.lo + b.lo, addHi a.hi b.hi, none, le_addHi a.nonempty b.nonempty⟩

def Dim.mul (a b : Dim) : Dim := ⟨a.lo * b.lo, mulHi a.hi b.hi, none, le_mulHi a.nonempty b.nonempty⟩

def intersect (a b : Dim) : Option Dim :=
  if h : ∀ h ∈ minHi a.hi b.hi, max a.lo b.lo ≤ h then
    some ⟨max a.lo b.lo, minHi a.hi b.hi, a.sym.or b.sym, h⟩
  else none

def hull (a b : Dim) : Dim :=
  ⟨min a.lo b.lo, maxHi a.hi b.hi, if a.sym = b.sym then a.sym else none,
    le_maxHi (.inl fun h hh => (Nat.min_le_left _ _).trans (a.nonempty h hh))⟩

def numel (shape : Shape) : Dim := shape.foldl Dim.mul (exact 1)

/-- The dimension allows the number, and its name, if it has one, stands for it. -/
structure Denotes (σ : String → Nat) (d : Dim) (n : Nat) : Prop where
  lo_le : d.lo ≤ n
  le_hi : ∀ h ∈ d.hi, n ≤ h
  named : ∀ s ∈ d.sym, σ s = n

/-- The concrete shapes that a ranged shape allows when its names stand for `σ`. -/
def Contains (σ : String → Nat) : Shape → List Nat → Prop := List.Forall₂ (Denotes σ)

variable {σ : String → Nat} {n m : Nat} {d a b : Dim} {dims : List Nat} {shape : Shape}

theorem contains_iff : d.contains n = true ↔ d.lo ≤ n ∧ ∀ h ∈ d.hi, n ≤ h := by
  rw [Dim.contains, Bool.and_eq_true, decide_eq_true_eq]
  apply and_congr_right'
  cases d.hi <;> simp

theorem Denotes.contains (h : Denotes σ d n) : d.contains n = true :=
  contains_iff.mpr ⟨h.lo_le, h.le_hi⟩

theorem denotes_exact (n : Nat) : Denotes σ (exact n) n :=
  ⟨le_rfl, by simp [exact], by simp [exact]⟩

theorem Denotes.eq_of_exact (h : Denotes σ d n) (hd : d.isExact = true) : n = d.lo := by
  have hhi : d.hi = some d.lo := by simpa [Dim.isExact] using hd
  exact le_antisymm (h.le_hi d.lo (by rw [hhi]; rfl)) h.lo_le

theorem denotes_newDim {lo : Int} {hi : Option Int} (hlo : lo ≤ n) (hhi : ∀ h ∈ hi, (n : Int) ≤ h) :
    ∃ d, newDim lo hi = .ok d ∧ Denotes σ d n := by
  cases hi with
  | none => exact ⟨_, rfl, by simpa using hlo, by simp, by simp⟩
  | some h =>
    have hn : (n : Int) ≤ h := hhi h rfl
    have hle : (lo.toNat : Int) ≤ h := by omega
    refine ⟨_, by rw [newDim]; exact dif_pos hle, ?_, ?_, by simp⟩
    · change lo.toNat ≤ n
      omega
    · intro k hk
      cases hk
      omega

theorem Denotes.add (ha : Denotes σ a m) (hb : Denotes σ b n) : Denotes σ (a.add b) (m + n) :=
  ⟨Nat.add_le_add ha.lo_le hb.lo_le, le_addHi ha.le_hi hb.le_hi, by simp [Dim.add]⟩

theorem Denotes.mul (ha : Denotes σ a m) (hb : Denotes σ b n) : Denotes σ (a.mul b) (m * n) :=
  ⟨Nat.mul_le_mul ha.lo_le hb.lo_le, le_mulHi ha.le_hi hb.le_hi, by simp [Dim.mul]⟩

theorem Denotes.intersect (ha : Denotes σ a n) (hb : Denotes σ b n) :
    ∃ d, Dims.intersect a b = some d ∧ Denotes σ d n := by
  have hle : max a.lo b.lo ≤ n := max_le ha.lo_le hb.lo_le
  have hhi : ∀ h ∈ minHi a.hi b.hi, n ≤ h := le_minHi ha.le_hi hb.le_hi
  refine ⟨_, dif_pos fun h hh => hle.trans (hhi h hh), hle, hhi, ?_⟩
  intro s hs
  cases hsym : a.sym with
  | none => exact hb.named s (by simpa [hsym] using hs)
  | some t => exact ha.named s (by simpa [hsym] using hs)

theorem denotes_hull_left (ha : Denotes σ a n) : Denotes σ (hull a b) n := by
  refine ⟨(Nat.min_le_left _ _).trans ha.lo_le, le_maxHi (.inl ha.le_hi), ?_⟩
  intro s hs
  rw [hull] at hs
  split at hs
  · exact ha.named s hs
  · cases hs

theorem denotes_hull_right (hb : Denotes σ b n) : Denotes σ (hull a b) n := by
  refine ⟨(Nat.min_le_right _ _).trans hb.lo_le, le_maxHi (.inr hb.le_hi), ?_⟩
  intro s hs
  rw [hull] at hs
  split at hs
  · next heq =>
    rw [heq] at hs
    exact hb.named s hs
  · cases hs

theorem denotes_foldl_mul (h : Contains σ shape dims) (hd : Denotes σ d n) :
    Denotes σ (shape.foldl Dim.mul d) (n * dims.prod) := by
  induction h generalizing d n with
  | nil => simpa using hd
  | cons hfirst _ ih =>
    rw [List.foldl_cons, List.prod_cons, ← mul_assoc]
    exact ih (hd.mul hfirst)

theorem denotes_numel (h : Contains σ shape dims) : Denotes σ (numel shape) dims.prod := by
  have hprod := denotes_foldl_mul h (denotes_exact 1)
  rw [one_mul] at hprod
  exact hprod

end Onnxsim.ShapeRanges.Dims

namespace Onnxsim.ShapeRanges.Broadcasting

open List Option Dims

def broadcastDim (a b : Dim) : Option Dim :=
  match (if a.contains 1 then [b] else []) ++ (if b.contains 1 then [a] else []) ++
      (intersect a b).toList with
  | [] => none
  | d :: rest => some (rest.foldl hull d)

def broadcastDims : Shape → Shape → Option Shape
  | a :: as, b :: bs => do
    let d ← broadcastDim a b
    let rest ← broadcastDims as bs
    some (d :: rest)
  | _, _ => some []

def pad (n : Nat) (s : Shape) : Shape := List.replicate (n - s.length) (exact 1) ++ s

def broadcast2 (a b : Shape) : Option Shape :=
  broadcastDims (pad (max a.length b.length) a) (pad (max a.length b.length) b)

def broadcastLoop (out : Option Shape) : List Shape → Option Shape
  | [] => out
  | s :: rest =>
    match out with
    | none => none
    | some out => broadcastLoop (broadcast2 out s) rest

def broadcast : List Shape → Except RuleError (Option Shape)
  | [] => .error .index
  | s :: rest => .ok (broadcastLoop (some s) rest)

def expand (shape target : Shape) : Option Shape := broadcast2 shape target

def matmul (a b : Shape) : Option Shape :=
  if a.length = 0 ∨ b.length = 0 then none
  else
    let a2 := if a.length = 1 then exact 1 :: a else a
    let b2 := if b.length = 1 then b ++ [exact 1] else b
    do
      let batch ← broadcast2 (a2.take (a2.length - 2)) (b2.take (b2.length - 2))
      let row ← a2[a2.length - 2]?
      let col ← b2.getLast?
      let out := batch ++ [row, col]
      let out := if a.length = 1 then out.take (out.length - 2) ++ out.drop (out.length - 1) else out
      some (if b.length = 1 then out.dropLast else out)

/-- The common length of two aligned dimensions, of which a one may be stretched. -/
def actualBroadcastDim (x y : Nat) : Option Nat :=
  if x = y then some x else if x = 1 then some y else if y = 1 then some x else none

def actualBroadcastDims : List Nat → List Nat → Option (List Nat)
  | x :: xs, y :: ys => do
    let d ← actualBroadcastDim x y
    let rest ← actualBroadcastDims xs ys
    some (d :: rest)
  | _, _ => some []

def actualPad (n : Nat) (xs : List Nat) : List Nat := List.replicate (n - xs.length) 1 ++ xs

/-- The shape that two shapes broadcast to, aligned at their last dimensions. -/
def actualBroadcast2 (xs ys : List Nat) : Option (List Nat) :=
  actualBroadcastDims (actualPad (max xs.length ys.length) xs) (actualPad (max xs.length ys.length) ys)

def actualBroadcast : List (List Nat) → Option (List Nat)
  | [] => none
  | xs :: rest => rest.foldlM actualBroadcast2 xs

/-- The shape of a matrix product: a vector on the left is a row and one on the right a column, and the
dimension that this adds is dropped again. -/
def actualMatmul (xs ys : List Nat) : Option (List Nat) :=
  match xs.reverse, ys.reverse with
  | [k], [l] => if k = l then some [] else none
  | [k], m :: l :: batch => if k = l then some (batch.reverse ++ [m]) else none
  | k :: n :: batch, [l] => if k = l then some (batch.reverse ++ [n]) else none
  | k :: n :: left, m :: l :: right =>
    if k = l then (actualBroadcast2 left.reverse right.reverse).map fun batch => batch ++ [n, m] else none
  | _, _ => none

variable {σ : String → Nat} {n : Nat} {xs zs ys : List Nat} {s a b batch : Shape} {actual : List (List Nat)}
  {shapes : List Shape}

theorem denotes_foldl_hull {l : List Dim} {d : Dim} (h : Denotes σ d n ∨ ∃ e ∈ l, Denotes σ e n) :
    Denotes σ (l.foldl hull d) n := by
  induction l generalizing d with
  | nil =>
    rcases h with h | ⟨e, he, -⟩
    · exact h
    · cases he
  | cons f l ih =>
    apply ih
    rcases h with h | ⟨e, he, h⟩
    · exact .inl (denotes_hull_left h)
    · rcases mem_cons.mp he with rfl | he
      · exact .inl (denotes_hull_right h)
      · exact .inr ⟨e, he, h⟩

theorem broadcastDim_of_mem {a b c : Dim}
    (hc : c ∈ (if a.contains 1 then [b] else []) ++ (if b.contains 1 then [a] else []) ++ (intersect a b).toList)
    (h : Denotes σ c n) :
    ∃ d, broadcastDim a b = some d ∧ Denotes σ d n := by
  rw [broadcastDim]
  split
  · next hnil =>
    rw [hnil] at hc
    cases hc
  · next d rest hcons =>
    rw [hcons] at hc
    refine ⟨_, rfl, denotes_foldl_hull ?_⟩
    rcases mem_cons.mp hc with rfl | hc
    · exact .inl h
    · exact .inr ⟨c, hc, h⟩

theorem broadcastDim_sound {a b : Dim} {x y z : Nat} (ha : Denotes σ a x) (hb : Denotes σ b y)
    (h : actualBroadcastDim x y = some z) : ∃ d, broadcastDim a b = some d ∧ Denotes σ d z := by
  rw [actualBroadcastDim] at h
  split at h
  · next heq =>
    cases h
    subst heq
    obtain ⟨d, hd, hdz⟩ := ha.intersect hb
    exact broadcastDim_of_mem (by simp [hd]) hdz
  · split at h
    · next hx =>
      cases h
      subst hx
      exact broadcastDim_of_mem (by simp [ha.contains]) hb
    · split at h
      · next hy =>
        cases h
        subst hy
        exact broadcastDim_of_mem (by simp [hb.contains]) ha
      · cases h

theorem broadcastDims_sound {as bs : Shape} (ha : Contains σ as xs) (hb : Contains σ bs ys)
    (h : actualBroadcastDims xs ys = some zs) :
    ∃ ds, broadcastDims as bs = some ds ∧ Contains σ ds zs := by
  induction ha generalizing bs ys zs with
  | nil =>
    cases h
    exact ⟨[], rfl, .nil⟩
  | cons hfirst hrest ih =>
    cases hb with
    | nil =>
      cases h
      exact ⟨[], rfl, .nil⟩
    | cons hfirst' hrest' =>
      rw [actualBroadcastDims] at h
      obtain ⟨z, hz, h⟩ := bind_eq_some_iff.mp h
      obtain ⟨zs', hzs, h⟩ := bind_eq_some_iff.mp h
      cases h
      obtain ⟨d, hd, hdz⟩ := broadcastDim_sound hfirst hfirst' hz
      obtain ⟨ds, hds, hdzs⟩ := ih hrest' hzs
      refine ⟨d :: ds, ?_, .cons hdz hdzs⟩
      rw [broadcastDims, hd, hds]
      rfl

theorem contains_replicate (n : Nat) : Contains σ (List.replicate n (exact 1)) (List.replicate n 1) := by
  induction n with
  | zero => exact .nil
  | succ n ih => exact .cons (denotes_exact 1) ih

theorem contains_pad (h : Contains σ s xs) (n : Nat) : Contains σ (pad n s) (actualPad n xs) := by
  rw [pad, actualPad, List.Forall₂.length_eq h]
  exact rel_append (contains_replicate _) h

theorem broadcast2_sound (ha : Contains σ a xs) (hb : Contains σ b ys) (h : actualBroadcast2 xs ys = some zs) :
    ∃ s, broadcast2 a b = some s ∧ Contains σ s zs := by
  rw [broadcast2, List.Forall₂.length_eq ha, List.Forall₂.length_eq hb]
  exact broadcastDims_sound (contains_pad ha _) (contains_pad hb _) h

theorem broadcastLoop_sound (hs : List.Forall₂ (Contains σ) shapes actual) (hx : Contains σ s xs)
    (h : actual.foldlM actualBroadcast2 xs = some zs) :
    ∃ t, broadcastLoop (some s) shapes = some t ∧ Contains σ t zs := by
  induction hs generalizing s xs with
  | nil =>
    cases h
    exact ⟨s, rfl, hx⟩
  | cons hfirst _ ih =>
    rw [foldlM_cons] at h
    obtain ⟨ys, hys, h⟩ := bind_eq_some_iff.mp h
    obtain ⟨t, ht, hty⟩ := broadcast2_sound hx hfirst hys
    rw [broadcastLoop, ht]
    exact ih hty h

theorem broadcast_sound (hs : List.Forall₂ (Contains σ) shapes actual) (h : actualBroadcast actual = some zs) :
    ∃ t, broadcast shapes = .ok (some t) ∧ Contains σ t zs := by
  cases hs with
  | nil => cases h
  | cons hfirst hrest =>
    obtain ⟨t, ht, htz⟩ := broadcastLoop_sound hrest hfirst h
    exact ⟨t, congrArg Except.ok ht, htz⟩

theorem actualPad_zero (xs : List Nat) : actualPad xs.length xs = xs := by
  rw [actualPad, Nat.sub_self]
  rfl

theorem actualBroadcastDims_ones (xs : List Nat) :
    actualBroadcastDims xs (List.replicate xs.length 1) = some xs := by
  induction xs with
  | nil => rfl
  | cons x xs ih =>
    have hdim : actualBroadcastDim x 1 = some x := by
      by_cases hx : x = 1
      · rw [actualBroadcastDim, if_pos hx]
      · rw [actualBroadcastDim, if_neg hx, if_neg hx, if_pos rfl]
    rw [length_cons, replicate_succ, actualBroadcastDims, hdim, ih]
    rfl

theorem actualBroadcastDims_comm (xs ys : List Nat) :
    actualBroadcastDims xs ys = actualBroadcastDims ys xs := by
  induction xs generalizing ys with
  | nil => cases ys <;> rfl
  | cons x xs ih =>
    cases ys with
    | nil => rfl
    | cons y ys =>
      have hdim : actualBroadcastDim x y = actualBroadcastDim y x := by
        simp only [actualBroadcastDim]
        split_ifs <;> simp_all
      rw [actualBroadcastDims, actualBroadcastDims, hdim, ih]

theorem actualBroadcastDims_self (s : List Nat) : actualBroadcastDims s s = some s := by
  induction s with
  | nil => rfl
  | cons n s ih => simp [actualBroadcastDims, actualBroadcastDim, ih]

theorem actualBroadcast2_self (s : List Nat) : actualBroadcast2 s s = some s := by
  have hpad : actualPad (max s.length s.length) s = s := by simp [actualPad]
  rw [actualBroadcast2, hpad, actualBroadcastDims_self]

theorem actualBroadcast2_nil (xs : List Nat) : actualBroadcast2 xs [] = some xs := by
  rw [actualBroadcast2, length_nil, Nat.max_zero, actualPad_zero]
  simp only [actualPad, length_nil, Nat.sub_zero, append_nil]
  exact actualBroadcastDims_ones xs

theorem actualBroadcast2_nil_left (xs : List Nat) : actualBroadcast2 [] xs = some xs := by
  rw [actualBroadcast2, actualBroadcastDims_comm, Nat.max_comm]
  exact actualBroadcast2_nil xs

theorem matmul_stacks (k n m l : Dim) (left right : Shape) (h : broadcast2 left.reverse right.reverse = some batch) :
    matmul (k :: n :: left).reverse (m :: l :: right).reverse = some (batch ++ [n, m]) := by
  simp [matmul, h]

theorem matmul_row (k m l : Dim) (right : Shape) (h : broadcast2 [] right.reverse = some batch) :
    matmul [k] (m :: l :: right).reverse = some (batch ++ [m]) := by
  simp [matmul, h]

theorem matmul_column (k n l : Dim) (left : Shape) (h : broadcast2 left.reverse [] = some batch) :
    matmul (k :: n :: left).reverse [l] = some (batch ++ [n]) := by
  simp [matmul, h]

theorem matmul_sound (ha : Contains σ a xs) (hb : Contains σ b ys) (h : actualMatmul xs ys = some zs) :
    ∃ s, matmul a b = some s ∧ Contains σ s zs := by
  have ha' := rel_reverse ha
  have hb' := rel_reverse hb
  rw [← a.reverse_reverse, ← b.reverse_reverse]
  rw [actualMatmul] at h
  generalize xs.reverse = xs' at ha' h
  generalize ys.reverse = ys' at hb' h
  generalize a.reverse = as at ha' ⊢
  generalize b.reverse = bs at hb' ⊢
  split at h
  · split at h
    · cases h
      match as, bs, ha', hb' with
      | [k], [l], _, _ => exact ⟨[], rfl, .nil⟩
    · cases h
  · next m l batch =>
    split at h
    · cases h
      match as, bs, ha', hb' with
      | [k], m :: l :: right, _, .cons hm (.cons _ hright) =>
        obtain ⟨s, hs, hsz⟩ := broadcast2_sound .nil (rel_reverse hright) (actualBroadcast2_nil_left _)
        exact ⟨s ++ [m], matmul_row k m l right hs, rel_append hsz (.cons hm .nil)⟩
    · cases h
  · next k n batch l =>
    split at h
    · cases h
      match as, bs, ha', hb' with
      | k :: n :: left, [l], .cons _ (.cons hn hleft), _ =>
        obtain ⟨s, hs, hsz⟩ := broadcast2_sound (rel_reverse hleft) .nil (actualBroadcast2_nil _)
        exact ⟨s ++ [n], matmul_column k n l left hs, rel_append hsz (.cons hn .nil)⟩
    · cases h
  · next k n left m l right =>
    split at h
    · obtain ⟨batch, hbatch, rfl⟩ := map_eq_some_iff.mp h
      match as, bs, ha', hb' with
      | k :: n :: left, m :: l :: right, .cons _ (.cons hn hleft), .cons hm (.cons _ hright) =>
        obtain ⟨s, hs, hsz⟩ := broadcast2_sound (rel_reverse hleft) (rel_reverse hright) hbatch
        exact ⟨s ++ [n, m], matmul_stacks k n m l left right hs,
          rel_append hsz (.cons hn (.cons hm .nil))⟩
    · cases h
  · cases h

end Onnxsim.ShapeRanges.Broadcasting
