import Mathlib.Algebra.Order.BigOperators.Group.List
import Mathlib.Data.List.Dedup
import Onnxsim.ShapeRanges.LayoutSound
import Onnxsim.ShapeRanges.Reshaping

namespace Onnxsim.ShapeRanges.DataDependent

open List Option Lib.Results Dims Layout
open LayoutSound Reshaping

def intHi (d : Dim) : Option Int := d.hi.map fun h : Nat => (h : Int)

/-- The range of the number of elements that are not zero, of `n` in all. -/
def nonzeroCount (n : Dim) (definitely possibly : Option Nat) (valueHull : Option (Extended × Extended)) :
    Except RuleError Dim :=
  match definitely, possibly with
  | some d, some p => newDim d (some (p : Int))
  | _, _ =>
    match valueHull with
    | some (lo, hi) =>
      if finite 0 < lo ∨ hi < finite 0 then newDim n.lo (intHi n)
      else if lo = finite 0 ∧ hi = finite 0 then .ok (exact 0)
      else newDim 0 (intHi n)
    | none => newDim 0 (intHi n)

def nonzero (shape : Shape) (definitely possibly : Option Nat)
    (valueHull : Option (Extended × Extended)) : Except RuleError Shape := do
  let count ← nonzeroCount (numel shape) definitely possibly valueHull
  .ok [exact shape.length, count]

def topk (shape : Shape) (axis : Int) (k : Dim) : Except RuleError Shape := do
  let ax ← normAxis axis shape.length
  let hi := minHi k.hi (shape.getD ax (exact 0)).hi
  let lo := hi.elim k.lo fun h => min k.lo h
  let d ← newDim lo (hi.map fun h : Nat => (h : Int))
  .ok (shape.set ax d)

/-- The range of the number of entries that a condition keeps of `d`. -/
def keptDim (d condLen : Dim) (definitely possibly : Option Nat) : Except RuleError Dim :=
  let hi := minHi d.hi condLen.hi
  match definitely, possibly with
  | some lo, some p =>
    let hi := minHi hi (some p)
    newDim (hi.elim lo fun h => min lo h) (hi.map fun h : Nat => (h : Int))
  | _, _ => newDim 0 (hi.map fun h : Nat => (h : Int))

def compress (shape : Shape) (axis : Option Int) (condLen : Dim) (definitely possibly : Option Nat) :
    Except RuleError Shape :=
  match axis with
  | none => do .ok [← keptDim (numel shape) condLen definitely possibly]
  | some axis => do
    let ax ← normAxis axis shape.length
    let kept ← keptDim (shape.getD ax (exact 0)) condLen definitely possibly
    .ok (shape.set ax kept)

/-- The shapes of the four outputs of `Unique`. -/
structure UniqueShapes where
  y : Shape
  indices : Shape
  inverse : Shape
  counts : Shape

def unique (shape : Shape) (axis : Option Int) : Except RuleError UniqueShapes :=
  match axis with
  | none => do
    let n := numel shape
    let nu ← newDim (min 1 n.lo : Nat) (intHi n)
    let inverse ← newDim n.lo (intHi n)
    .ok ⟨[nu], [nu], [inverse], [nu]⟩
  | some axis => do
    let ax ← normAxis axis shape.length
    let d := shape.getD ax (exact 0)
    let nu ← newDim (min 1 d.lo : Nat) (intHi d)
    let inverse ← newDim d.lo (intHi d)
    .ok ⟨shape.set ax nu, [nu], [inverse], [nu]⟩

def nms (boxes scores : Shape) (maxPerClass : Dim) : Except RuleError (Option Shape) :=
  match boxes, scores with
  | [b, n, _], [_, c, _] => do
    let per ← newDim 0 ((minHi maxPerClass.hi n.hi).map fun h : Nat => (h : Int))
    let total ← newDim 0 (intHi ((b.mul c).mul per))
    .ok (some [total, exact 3])
  | _, _ => .ok none

def finiteEnds (e : Extended × Extended) : Option (ℚ × ℚ) := do
  let lo ← number? e.1
  let hi ← number? e.2
  some (lo, hi)

def rangeCount (start limit delta : Extended × Extended) : Except RuleError Dim :=
  match finiteEnds start, finiteEnds limit, finiteEnds delta with
  | some (s0, s1), some (l0, l1), some (d0, d1) =>
    if 0 < d0 then newDim (max 0 ⌈(l0 - s1) / d1⌉) (some (max 0 ⌈(l1 - s0) / d0⌉))
    else if d1 < 0 then newDim (max 0 ⌈(l1 - s0) / d0⌉) (some (max 0 ⌈(l0 - s1) / d1⌉))
    else newDim 0 none
  | _, _, _ => newDim 0 none

def actualNonzero (dims : List Nat) (values : List ℚ) : Option (List Nat) :=
  if values.length = dims.prod then some [dims.length, values.countP fun v => v ≠ 0] else none

def actualTopk (dims : List Nat) (axis : Int) (k : Nat) : Option (List Nat) := do
  let ax ← actualAxis axis dims.length
  if k ≤ dims.getD ax 0 then some (dims.set ax k) else none

def actualKept (len : Nat) (condition : List Bool) : Option Nat :=
  if (condition.drop len).all (!·) then some (condition.countP id) else none

def actualCompress (dims : List Nat) (axis : Option Int) (condition : List Bool) : Option (List Nat) :=
  match axis with
  | none => (actualKept dims.prod condition).map fun kept => [kept]
  | some axis => do
    let ax ← actualAxis axis dims.length
    let kept ← actualKept (dims.getD ax 0) condition
    some (dims.set ax kept)

/-- The output shapes of `Unique` on the given slices: the elements, or the parts along an axis. -/
def actualUnique {τ : Type} [DecidableEq τ] (dims : List Nat) (axis : Option Int) (slices : List τ) :
    Option (List Nat × List Nat × List Nat × List Nat) :=
  let u := slices.dedup.length
  match axis with
  | none =>
    if slices.length = dims.prod then some ([u], [u], [slices.length], [u]) else none
  | some axis => do
    let ax ← actualAxis axis dims.length
    if slices.length = dims.getD ax 0 then some (dims.set ax u, [u], [slices.length], [u]) else none

/-- One row for each box selected, of each batch and class at most `maxPerClass` and no box twice. -/
def actualNms (boxes scores : List Nat) (maxPerClass : Nat) (selected : Nat → Nat → Nat) :
    Option (List Nat) :=
  match boxes, scores with
  | [b, n, 4], [b', c, n'] =>
    if b = b' ∧ n = n' ∧ ∀ i < b, ∀ j < c, selected i j ≤ min maxPerClass n then
      some [((List.range b).map fun i => ((List.range c).map fun j => selected i j).sum).sum, 3]
    else none
  | _, _ => none

def actualRangeCount (start limit delta : ℚ) : Option Nat :=
  if delta = 0 then none else some ⌈(limit - start) / delta⌉.toNat

variable {σ : String → Nat}

/-- A count is between the numbers that are certain and possible, where these are known. -/
structure Counted (definitely possibly : Option Nat) (n : Nat) : Prop where
  definitely_le : ∀ d ∈ definitely, d ≤ n
  le_possibly : ∀ p ∈ possibly, n ≤ p

def Between (e : Extended × Extended) (q : ℚ) : Prop := e.1 ≤ finite q ∧ finite q ≤ e.2

variable {n kept len m a : Nat} {hi definitely possibly : Option Nat} {d condLen : Dim} {values : List ℚ}
    {valueHull : Option (Extended × Extended)} {dims out : List Nat} {shape : Shape} {condition : List Bool}
    {axis : Option Int} {τ : Type} {slices : List τ} {q p x0 x1 d0 d1 x : ℚ}

theorem denotes_upTo {lo : Int} (hlo : lo ≤ n) (hhi : ∀ h ∈ hi, n ≤ h) :
    ∃ d, newDim lo (hi.map fun h : Nat => (h : Int)) = .ok d ∧ Denotes σ d n := by
  apply denotes_newDim hlo
  intro h hh
  obtain ⟨k, hk, hkh⟩ := map_eq_some_iff.mp hh
  rw [← hkh]
  exact_mod_cast hhi k hk

theorem denotes_fromZero (hhi : ∀ h ∈ hi, n ≤ h) :
    ∃ d, newDim 0 (hi.map fun h : Nat => (h : Int)) = .ok d ∧ Denotes σ d n :=
  denotes_upTo (Int.natCast_nonneg n) hhi

theorem denotes_unnamed (h : Denotes σ d n) : ∃ e, newDim d.lo (intHi d) = .ok e ∧ Denotes σ e n :=
  denotes_upTo (by exact_mod_cast h.lo_le) h.le_hi

theorem countP_of_hull {lo hi : Extended} (hv : ∀ v ∈ values, Between (lo, hi) v) (h : finite 0 < lo ∨ hi < finite 0) :
    values.countP (fun v => v ≠ 0) = values.length := by
  rw [countP_eq_length]
  intro v hmem
  rw [decide_eq_true_eq]
  rintro rfl
  rcases h with h | h
  · exact absurd (hv 0 hmem).1 (not_le.mpr h)
  · exact absurd (hv 0 hmem).2 (not_le.mpr h)

theorem countP_of_zero (hv : ∀ v ∈ values, Between (finite 0, finite 0) v) : values.countP (fun v => v ≠ 0) = 0 := by
  rw [countP_eq_zero]
  intro v hmem
  have hzero : v = 0 := le_antisymm (finite_le.mp (hv v hmem).2) (finite_le.mp (hv v hmem).1)
  simp [hzero]

theorem nonzeroCount_of_hull {n : Dim} (hn : Denotes σ n values.length)
    (hhull : ∀ e ∈ valueHull, ∀ v ∈ values, Between e v) :
    ∃ d, (match valueHull with
      | some (lo, hi) =>
        if finite 0 < lo ∨ hi < finite 0 then newDim n.lo (intHi n)
        else if lo = finite 0 ∧ hi = finite 0 then .ok (exact 0)
        else newDim 0 (intHi n)
      | none => newDim 0 (intHi n)) = .ok d ∧ Denotes σ d (values.countP fun v => v ≠ 0) := by
  have hle : values.countP (fun v => v ≠ 0) ≤ values.length := countP_le_length
  have hall : ∃ d, newDim 0 (intHi n) = .ok d ∧ Denotes σ d (values.countP fun v => v ≠ 0) :=
    denotes_fromZero fun h hh => hle.trans (hn.le_hi h hh)
  cases valueHull with
  | none => exact hall
  | some e =>
    obtain ⟨lo, hi⟩ := e
    have hv := hhull (lo, hi) rfl
    dsimp only
    split
    · next hside =>
      rw [countP_of_hull hv hside]
      exact denotes_upTo (by exact_mod_cast hn.lo_le) hn.le_hi
    · split
      · next hzero =>
        rw [hzero.1, hzero.2] at hv
        rw [countP_of_zero hv]
        exact ⟨exact 0, rfl, denotes_exact 0⟩
      · exact hall

theorem nonzeroCount_sound {n : Dim} (hn : Denotes σ n values.length)
    (hcount : Counted definitely possibly (values.countP fun v => v ≠ 0))
    (hhull : ∀ e ∈ valueHull, ∀ v ∈ values, Between e v) :
    ∃ d, nonzeroCount n definitely possibly valueHull = .ok d ∧
      Denotes σ d (values.countP fun v => v ≠ 0) := by
  cases definitely with
  | none => exact nonzeroCount_of_hull hn hhull
  | some lo =>
    cases possibly with
    | none => exact nonzeroCount_of_hull hn hhull
    | some p =>
      change ∃ d, newDim lo (some (p : Int)) = .ok d ∧ _
      apply denotes_newDim
      · exact_mod_cast hcount.definitely_le lo rfl
      · intro h hh
        cases hh
        exact_mod_cast hcount.le_possibly p rfl

theorem nonzero_sound (hs : Contains σ shape dims)
    (hcount : Counted definitely possibly (values.countP fun v => v ≠ 0))
    (hhull : ∀ e ∈ valueHull, ∀ v ∈ values, Between e v) (h : actualNonzero dims values = some out) :
    ∃ s, nonzero shape definitely possibly valueHull = .ok s ∧ Contains σ s out := by
  rw [actualNonzero] at h
  split at h
  · next hlen =>
    cases h
    obtain ⟨d, hd, hdn⟩ := nonzeroCount_sound (hlen ▸ denotes_numel hs) hcount hhull
    have hrank : Denotes σ (exact shape.length) dims.length := List.Forall₂.length_eq hs ▸ denotes_exact _
    exact ⟨_, ok_bind hd _, .cons hrank (.cons hdn .nil)⟩
  · cases h

theorem topk_sound (hs : Contains σ shape dims) {axis : Int} {k : Dim} (hk : Denotes σ k n)
    (h : actualTopk dims axis n = some out) :
    ∃ s, topk shape axis k = .ok s ∧ Contains σ s out := by
  obtain ⟨ax, hax, h⟩ := bind_eq_some_iff.mp h
  split at h
  · next hle =>
    cases h
    have hd := denotes_getD hs (actualAxis_lt hax)
    have hhi : ∀ h ∈ minHi k.hi (shape.getD ax (exact 0)).hi, n ≤ h :=
      le_minHi hk.le_hi fun h hh => hle.trans (hd.le_hi h hh)
    have hlo : (((minHi k.hi (shape.getD ax (exact 0)).hi).elim k.lo fun h => min k.lo h : Nat) : Int) ≤ n := by
      have hklo := hk.lo_le
      cases minHi k.hi (shape.getD ax (exact 0)).hi with
      | none => exact_mod_cast hklo
      | some h => exact_mod_cast (Nat.min_le_left k.lo h).trans hklo
    obtain ⟨d, hnew, hdn⟩ := denotes_upTo (σ := σ) hlo hhi
    refine ⟨shape.set ax d, ?_, forall₂_set hdn hs ax⟩
    rw [topk, List.Forall₂.length_eq hs, ok_bind (normAxis_of_actual hax)]
    exact ok_bind hnew _
  · cases h

theorem actualKept_le (h : actualKept len condition = some kept) :
    kept ≤ len ∧ kept ≤ condition.length ∧ kept = condition.countP id := by
  rw [actualKept] at h
  split at h
  · next hrest =>
    cases h
    have hnone : (condition.drop len).countP id = 0 := by
      rw [countP_eq_zero]
      intro b hb
      simpa using List.all_eq_true.mp hrest b hb
    have hsplit : condition.countP id = (condition.take len).countP id := by
      conv_lhs => rw [← take_append_drop len condition]
      rw [countP_append, hnone, Nat.add_zero]
    have htake : (condition.take len).countP id ≤ len :=
      countP_le_length.trans (by rw [length_take]; exact Nat.min_le_left _ _)
    exact ⟨hsplit ▸ htake, countP_le_length, rfl⟩
  · cases h

theorem keptDim_sound (hd : Denotes σ d len) (hc : Denotes σ condLen condition.length)
    (hcount : Counted definitely possibly (condition.countP id)) (h : actualKept len condition = some kept) :
    ∃ e, keptDim d condLen definitely possibly = .ok e ∧ Denotes σ e kept := by
  obtain ⟨hlen, hcond, hkept⟩ := actualKept_le h
  rw [← hkept] at hcount
  have hhi : ∀ h ∈ minHi d.hi condLen.hi, kept ≤ h :=
    le_minHi (fun h hh => hlen.trans (hd.le_hi h hh)) fun h hh => hcond.trans (hc.le_hi h hh)
  cases definitely with
  | none => exact denotes_fromZero hhi
  | some lo =>
    cases possibly with
    | none => exact denotes_fromZero hhi
    | some p =>
      have hhi' : ∀ h ∈ minHi (minHi d.hi condLen.hi) (some p), kept ≤ h :=
        le_minHi hhi fun h hh => hcount.le_possibly h hh
      refine denotes_upTo ?_ hhi'
      have hlo : lo ≤ kept := hcount.definitely_le lo rfl
      cases minHi (minHi d.hi condLen.hi) (some p) with
      | none =>
        rw [elim_none]
        exact_mod_cast hlo
      | some h =>
        rw [elim_some]
        exact_mod_cast (Nat.min_le_left lo h).trans hlo

theorem compress_sound (hs : Contains σ shape dims) (hc : Denotes σ condLen condition.length)
    (hcount : Counted definitely possibly (condition.countP id)) (h : actualCompress dims axis condition = some out) :
    ∃ s, compress shape axis condLen definitely possibly = .ok s ∧ Contains σ s out := by
  cases axis with
  | none =>
    obtain ⟨kept, hkept, rfl⟩ := map_eq_some_iff.mp h
    obtain ⟨d, hd, hdk⟩ := keptDim_sound (denotes_numel hs) hc hcount hkept
    exact ⟨[d], ok_bind hd _, .cons hdk .nil⟩
  | some axis =>
    obtain ⟨ax, hax, h⟩ := bind_eq_some_iff.mp h
    obtain ⟨kept, hkept, h⟩ := bind_eq_some_iff.mp h
    cases h
    obtain ⟨d, hd, hdk⟩ := keptDim_sound (denotes_getD hs (actualAxis_lt hax)) hc hcount hkept
    refine ⟨shape.set ax d, ?_, forall₂_set hdk hs ax⟩
    rw [compress, List.Forall₂.length_eq hs, ok_bind (normAxis_of_actual hax)]
    exact ok_bind hd _

theorem denotes_distinct [DecidableEq τ] (hd : Denotes σ d slices.length) :
    ∃ e, newDim (min 1 d.lo : Nat) (intHi d) = .ok e ∧ Denotes σ e slices.dedup.length := by
  have hle : slices.dedup.length ≤ slices.length := (dedup_sublist slices).length_le
  have hlo : min 1 d.lo ≤ slices.dedup.length := by
    cases slices with
    | nil =>
      have h0 : d.lo = 0 := Nat.le_zero.mp hd.lo_le
      simp [h0]
    | cons s slices =>
      have hmem : s ∈ (s :: slices).dedup := mem_dedup.mpr mem_cons_self
      exact (Nat.min_le_left 1 d.lo).trans (length_pos_of_mem hmem)
  exact denotes_upTo (by exact_mod_cast hlo) fun h hh => hle.trans (hd.le_hi h hh)

def UniqueContains (σ : String → Nat) (s : UniqueShapes)
    (out : List Nat × List Nat × List Nat × List Nat) : Prop :=
  Contains σ s.y out.1 ∧ Contains σ s.indices out.2.1 ∧ Contains σ s.inverse out.2.2.1 ∧
    Contains σ s.counts out.2.2.2

theorem unique_sound [DecidableEq τ] (hs : Contains σ shape dims) {out : List Nat × List Nat × List Nat × List Nat}
    (h : actualUnique dims axis slices = some out) :
    ∃ s, unique shape axis = .ok s ∧ UniqueContains σ s out := by
  cases axis with
  | none =>
    rw [actualUnique] at h
    split at h
    · next hlen =>
      cases h
      have hn : Denotes σ (numel shape) slices.length := hlen ▸ denotes_numel hs
      obtain ⟨nu, hnu, hu⟩ := denotes_distinct hn
      obtain ⟨inverse, hinv, hi⟩ := denotes_unnamed hn
      refine ⟨⟨[nu], [nu], [inverse], [nu]⟩, ?_, .cons hu .nil, .cons hu .nil, .cons hi .nil, .cons hu .nil⟩
      rw [unique]
      exact (ok_bind hnu _).trans (ok_bind hinv _)
    · cases h
  | some axis =>
    obtain ⟨ax, hax, h⟩ := bind_eq_some_iff.mp h
    split at h
    · next hlen =>
      cases h
      have hn : Denotes σ (shape.getD ax (exact 0)) slices.length :=
        hlen ▸ denotes_getD hs (actualAxis_lt hax)
      obtain ⟨nu, hnu, hu⟩ := denotes_distinct hn
      obtain ⟨inverse, hinv, hi⟩ := denotes_unnamed hn
      refine ⟨⟨shape.set ax nu, [nu], [inverse], [nu]⟩, ?_, forall₂_set hu hs ax, .cons hu .nil,
        .cons hi .nil, .cons hu .nil⟩
      rw [unique, List.Forall₂.length_eq hs, ok_bind (normAxis_of_actual hax)]
      exact (ok_bind hnu _).trans (ok_bind hinv _)
    · cases h

theorem sum_range_le {f : Nat → Nat} (h : ∀ i < n, f i ≤ m) : ((List.range n).map f).sum ≤ n * m := by
  have hall : ∀ x ∈ (List.range n).map f, x ≤ m := by
    intro x hx
    obtain ⟨i, hi, rfl⟩ := List.mem_map.mp hx
    exact h i (mem_range.mp hi)
  have hsum := sum_le_card_nsmul _ m hall
  rw [length_map, length_range] at hsum
  exact hsum

theorem nms_sound {boxes scores : Shape} {bs ss : List Nat} (hb : Contains σ boxes bs) (hsc : Contains σ scores ss)
    {maxPerClass : Dim} (hm : Denotes σ maxPerClass m) {selected : Nat → Nat → Nat}
    (h : actualNms bs ss m selected = some out) :
    ∃ r, nms boxes scores maxPerClass = .ok r ∧ ∀ s ∈ r, Contains σ s out := by
  rw [actualNms.eq_def] at h
  split at h
  · next b n b' c n' =>
    split at h
    · next hvalid =>
      cases h
      match boxes, scores, hb, hsc with
      | [_, dn, _], [_, _, _], .cons hdb (.cons hdn _), .cons _ (.cons hdc _) =>
        have hmin : ∀ h ∈ minHi maxPerClass.hi dn.hi, min m n ≤ h :=
          le_minHi (fun h hh => (Nat.min_le_left m n).trans (hm.le_hi h hh))
            fun h hh => (Nat.min_le_right m n).trans (hdn.le_hi h hh)
        obtain ⟨per, hpernew, hper⟩ := denotes_fromZero (σ := σ) hmin
        have hrow (i : Nat) (hi : i < b) :
            ((List.range c).map fun j => selected i j).sum ≤ c * min m n :=
          sum_range_le fun j hj => hvalid.2.2 i hi j hj
        have hsum := sum_range_le hrow
        rw [← Nat.mul_assoc] at hsum
        have htotal := (hdb.mul hdc).mul hper
        obtain ⟨total, hnew, ht⟩ := denotes_fromZero (σ := σ) fun h hh => hsum.trans (htotal.le_hi h hh)
        refine ⟨some [total, exact 3], ?_, ?_⟩
        · rw [nms]
          exact (ok_bind hpernew _).trans (ok_bind hnew _)
        · intro s hs
          cases hs
          exact .cons ht (.cons (denotes_exact 3) .nil)
    · cases h
  · cases h

theorem ceil_toNat_le (ha : a = ⌈p⌉.toNat) (h : p ≤ q) : (a : Int) ≤ max 0 ⌈q⌉ := by
  have hceil := Int.ceil_le_ceil h
  omega

theorem le_ceil_toNat (ha : a = ⌈q⌉.toNat) (h : p ≤ q ∨ p ≤ 0) : max 0 ⌈p⌉ ≤ (a : Int) := by
  rcases h with h | h
  · have hceil := Int.ceil_le_ceil h
    omega
  · have hceil : ⌈p⌉ ≤ 0 := Int.ceil_le.mpr (by exact_mod_cast h)
    omega

theorem finiteEnds_between {e : Extended × Extended} {lo hi : ℚ} (he : finiteEnds e = some (lo, hi)) (h : Between e q) :
    lo ≤ q ∧ q ≤ hi := by
  obtain ⟨a, ha, he⟩ := bind_eq_some_iff.mp he
  obtain ⟨b, hb, he⟩ := bind_eq_some_iff.mp he
  cases he
  have hlo := h.1
  have hhi := h.2
  rw [number?_eq_some.mp ha] at hlo
  rw [number?_eq_some.mp hb] at hhi
  exact ⟨finite_le.mp hlo, finite_le.mp hhi⟩

/-- A quotient of a number in an interval by a positive one in an interval: above, the largest over the
smallest bounds it once it is not negative. -/
theorem div_bounds {d : ℚ} (hx : x0 ≤ x ∧ x ≤ x1) (hd : d0 ≤ d ∧ d ≤ d1) (hpos : 0 < d0) :
    (x0 / d1 ≤ x / d ∨ x0 / d1 ≤ 0) ∧ (x / d ≤ x1 / d0 ∨ x / d ≤ 0) := by
  have hdpos : 0 < d := hpos.trans_le hd.1
  have hd1pos : 0 < d1 := hdpos.trans_le hd.2
  constructor
  · by_cases h0 : 0 ≤ x0
    · left
      exact div_le_div₀ (h0.trans hx.1) hx.1 hdpos hd.2
    · right
      exact div_nonpos_of_nonpos_of_nonneg (not_le.mp h0).le hd1pos.le
  · by_cases h0 : 0 ≤ x
    · left
      exact div_le_div₀ (h0.trans hx.2) hx.2 hpos hd.1
    · right
      exact div_nonpos_of_nonpos_of_nonneg (not_le.mp h0).le hdpos.le

theorem denotes_quotient {d : ℚ} (hx : x0 ≤ x ∧ x ≤ x1) (hd : d0 ≤ d ∧ d ≤ d1) (hpos : 0 < d0) :
    ∃ e, newDim (max 0 ⌈x0 / d1⌉) (some (max 0 ⌈x1 / d0⌉)) = .ok e ∧ Denotes σ e ⌈x / d⌉.toNat := by
  obtain ⟨hlo, hhi⟩ := div_bounds hx hd hpos
  apply denotes_newDim (le_ceil_toNat rfl hlo)
  intro h hh
  cases hh
  rcases hhi with hhi | hhi
  · exact ceil_toNat_le rfl hhi
  · have hceil : ⌈x / d⌉ ≤ 0 := Int.ceil_le.mpr (by exact_mod_cast hhi)
    omega

theorem denotes_unbounded (n : Nat) : ∃ e, newDim 0 none = .ok e ∧ Denotes σ e n :=
  denotes_newDim (by omega) (by simp)

theorem rangeCount_sound {start limit delta : Extended × Extended} {s l d : ℚ} (hs : Between start s)
    (hl : Between limit l) (hd : Between delta d) (h : actualRangeCount s l d = some n) :
    ∃ e, rangeCount start limit delta = .ok e ∧ Denotes σ e n := by
  rw [actualRangeCount] at h
  split at h
  · cases h
  · cases h
    rw [rangeCount.eq_def]
    split
    · next s0 s1 l0 l1 d0 d1 hse hle hde =>
      obtain ⟨hs0, hs1⟩ := finiteEnds_between hse hs
      obtain ⟨hl0, hl1⟩ := finiteEnds_between hle hl
      obtain ⟨hd0, hd1⟩ := finiteEnds_between hde hd
      split
      · next hpos => exact denotes_quotient ⟨by linarith, by linarith⟩ ⟨hd0, hd1⟩ hpos
      · split
        · next hneg =>
          have hflip : (l - s) / d = (s - l) / (-d) := by rw [← neg_sub s l, neg_div, div_neg]
          have hlo : (l1 - s0) / d0 = (s0 - l1) / (-d0) := by rw [← neg_sub s0 l1, neg_div, div_neg]
          have hhi : (l0 - s1) / d1 = (s1 - l0) / (-d1) := by rw [← neg_sub s1 l0, neg_div, div_neg]
          rw [hflip, hlo, hhi]
          exact denotes_quotient ⟨by linarith, by linarith⟩ ⟨by linarith, by linarith⟩ (by linarith)
        · exact denotes_unbounded _
    · exact denotes_unbounded _

end Onnxsim.ShapeRanges.DataDependent

namespace Onnxsim.ShapeRanges.Soundness

open Dims Broadcasting Layout
open LayoutSound Reshaping DataDependent

/-- The rule raises nothing, and any shape it returns contains the shape of the execution. -/
def Answers (σ : String → Nat) (rule : Except RuleError (Option Shape)) (out : List Nat) : Prop :=
  ∃ r, rule = .ok r ∧ ∀ s ∈ r, Contains σ s out

variable {out : List Nat} {σ : String → Nat}

theorem answers_ok {rule : Option Shape} (h : ∃ s, rule = some s ∧ Contains σ s out) : Answers σ (.ok rule) out := by
  obtain ⟨s, rfl, hs⟩ := h
  refine ⟨some s, rfl, ?_⟩
  intro t ht
  cases ht
  exact hs

theorem answers_map {rule : Except RuleError Shape} (h : ∃ s, rule = .ok s ∧ Contains σ s out) :
    Answers σ (rule.map some) out := by
  obtain ⟨s, rfl, hs⟩ := h
  exact answers_ok ⟨s, rfl, hs⟩

theorem answers_some {rule : Except RuleError (Option Shape)} (h : ∃ s, rule = .ok (some s) ∧ Contains σ s out) :
    Answers σ rule out := by
  obtain ⟨s, rfl, hs⟩ := h
  exact answers_ok ⟨s, rfl, hs⟩

/-- Each rule on ranged shapes covers every valid execution on the concrete shapes they contain, for
every assignment `σ` of numbers to the names. -/
structure RulesSound (σ : String → Nat) : Prop where
  broadcast2 : ∀ {a b : Shape} {xs ys out : List Nat}, Contains σ a xs → Contains σ b ys →
    actualBroadcast2 xs ys = some out → Answers σ (.ok (broadcast2 a b)) out
  broadcast : ∀ {shapes : List Shape} {actual : List (List Nat)} {out : List Nat},
    List.Forall₂ (Contains σ) shapes actual → actualBroadcast actual = some out →
      Answers σ (broadcast shapes) out
  concat : ∀ {shapes : List Shape} {actual : List (List Nat)} {axis : Int} {out : List Nat},
    List.Forall₂ (Contains σ) shapes actual → actualConcat actual axis = some out →
      Answers σ (concat shapes axis) out
  gather : ∀ {data indices : Shape} {xs is : List Nat} {axis : Int} {out : List Nat},
    Contains σ data xs → Contains σ indices is → actualGather xs is axis = some out →
      Answers σ ((gather data indices axis).map some) out
  gatherNd : ∀ {data indices : Shape} {xs is : List Nat} {batchDims : Nat} {out : List Nat},
    Contains σ data xs → Contains σ indices is → actualGatherNd xs is batchDims = some out →
      Answers σ (.ok (gatherNd data indices batchDims)) out
  squeeze : ∀ {shape : Shape} {dims : List Nat} {axes : Option (List Int)} {out : List Nat},
    Contains σ shape dims → actualSqueeze dims axes = some out → Answers σ (squeeze shape axes) out
  unsqueeze : ∀ {shape : Shape} {dims : List Nat} {axes : List Int} {out : List Nat},
    Contains σ shape dims → IsUnsqueeze dims axes out → Answers σ ((unsqueeze shape axes).map some) out
  transpose : ∀ {shape : Shape} {dims : List Nat} {perm : Option (List Int)} {out : List Nat},
    Contains σ shape dims → actualTranspose dims perm = some out →
      Answers σ ((transpose shape perm).map some) out
  flatten : ∀ {shape : Shape} {dims : List Nat} {axis : Int} {out : List Nat},
    Contains σ shape dims → actualFlatten dims axis = some out →
      Answers σ (.ok (some (flatten shape axis))) out
  expand : ∀ {shape target : Shape} {xs ts out : List Nat}, Contains σ shape xs → Contains σ target ts →
    actualBroadcast2 xs ts = some out → Answers σ (.ok (expand shape target)) out
  tile : ∀ {shape repeats : Shape} {dims rs out : List Nat}, Contains σ shape dims →
    Contains σ repeats rs → actualTile dims rs = some out → Answers σ (.ok (tile shape repeats)) out
  reshape : ∀ {shape : Shape} {dims : List Nat} {target : List (Extended × Extended)} {ts : List Int}
    {allowzero : Bool} {out : List Nat}, Contains σ shape dims → List.Forall₂ Within target ts →
      actualReshape dims ts allowzero = some out → Answers σ (reshape shape target allowzero) out
  reduce : ∀ {shape : Shape} {dims : List Nat} {axes : Option (List Int)} {keepdims : Bool}
    {out : List Nat}, Contains σ shape dims → actualReduce dims axes keepdims = some out →
      Answers σ ((reduce shape axes keepdims).map some) out
  reducedCount : ∀ {shape : Shape} {dims : List Nat} {axes : Option (List Int)} {n : Nat},
    Contains σ shape dims → actualReducedCount dims axes = some n →
      ∃ d, reducedCount shape axes = .ok d ∧ Denotes σ d n
  matmul : ∀ {a b : Shape} {xs ys out : List Nat}, Contains σ a xs → Contains σ b ys →
    actualMatmul xs ys = some out → Answers σ (.ok (matmul a b)) out
  nonzero : ∀ {shape : Shape} {dims : List Nat} {definitely possibly : Option Nat}
    {valueHull : Option (Extended × Extended)} {values : List ℚ} {out : List Nat},
    Contains σ shape dims → Counted definitely possibly (values.countP fun v => v ≠ 0) →
      (∀ e ∈ valueHull, ∀ v ∈ values, Between e v) → actualNonzero dims values = some out →
        Answers σ ((nonzero shape definitely possibly valueHull).map some) out
  topk : ∀ {shape : Shape} {dims : List Nat} {axis : Int} {k : Dim} {n : Nat} {out : List Nat},
    Contains σ shape dims → Denotes σ k n → actualTopk dims axis n = some out →
      Answers σ ((topk shape axis k).map some) out
  compress : ∀ {shape : Shape} {dims : List Nat} {axis : Option Int} {condLen : Dim}
    {condition : List Bool} {definitely possibly : Option Nat} {out : List Nat}, Contains σ shape dims →
      Denotes σ condLen condition.length → Counted definitely possibly (condition.countP id) →
        actualCompress dims axis condition = some out →
          Answers σ ((compress shape axis condLen definitely possibly).map some) out
  unique : ∀ {τ : Type} [DecidableEq τ] {shape : Shape} {dims : List Nat} {axis : Option Int}
    {slices : List τ} {out : List Nat × List Nat × List Nat × List Nat}, Contains σ shape dims →
      actualUnique dims axis slices = some out →
        ∃ s, unique shape axis = .ok s ∧ UniqueContains σ s out
  nms : ∀ {boxes scores : Shape} {bs ss : List Nat} {maxPerClass : Dim} {m : Nat}
    {selected : Nat → Nat → Nat} {out : List Nat}, Contains σ boxes bs → Contains σ scores ss →
      Denotes σ maxPerClass m → actualNms bs ss m selected = some out →
        Answers σ (nms boxes scores maxPerClass) out
  rangeCount : ∀ {start limit delta : Extended × Extended} {s l d : ℚ} {n : Nat}, Between start s →
    Between limit l → Between delta d → actualRangeCount s l d = some n →
      ∃ e, rangeCount start limit delta = .ok e ∧ Denotes σ e n

theorem within_self (t : Int) : Within (finite t, finite t) t := ⟨le_rfl, le_rfl⟩

def rows : Dim := ⟨4, some 12, some "rows", by simp⟩

theorem denotes_rows : Denotes (fun _ => 4) rows 4 := ⟨le_rfl, by simp [rows], by simp [rows]⟩

end Onnxsim.ShapeRanges.Soundness
