import Mathlib.Tactic.Positivity
import Onnxsim.Certify.Shrinking
import Onnxsim.Lib.Results

namespace Onnxsim.Certify.Patches

open Windows Shrinking

variable {g h : Axis} {a : ConvAxis} {n n' l l' p p' q q' d : Int}

/-- How a tensor with patch `g` lies along one axis, at the full and at the reduced extent. -/
structure Aligned (g : Axis) (n n' l l' : Int) : Prop where
  stride : 0 < g.stride
  lead : 0 ≤ g.lead
  wide : 1 ≤ g.lead + g.tail
  inside : ∀ q, q * g.stride + g.tail ≤ n → q < l
  inside' : ∀ q, q * g.stride + g.tail ≤ n' → q < l'
  moved : g.stride ∣ n - n' → (l - l') * g.stride = n - n'

/-- Two positions that read the same, `d` pixels apart. -/
structure Twin (g : Axis) (n n' p p' d : Int) : Prop where
  shift : d = (p - p') * g.stride
  top : d = 0 ∨ (g.lead ≤ p * g.stride ∧ g.lead ≤ p' * g.stride)
  bottom : d = n - n' ∨ (p * g.stride + g.tail ≤ n ∧ p' * g.stride + g.tail ≤ n')

def Interior (g : Axis) (n p : Int) : Prop := g.lead ≤ p * g.stride ∧ p * g.stride + g.tail ≤ n

theorem aligned_unit (n n' : Int) : Aligned unitAxis n n' n n' := by
  refine ⟨by decide, by decide, by decide, fun q hq => ?_, fun q hq => ?_, fun _ => ?_⟩
  · simp only [unitAxis] at hq
    omega
  · simp only [unitAxis] at hq
    omega
  · simp only [unitAxis, mul_one]

/-- A convolution axis that can be planned over. -/
structure Plannable (a : ConvAxis) : Prop where
  kernel : 0 < a.kernel
  stride : 0 < a.stride
  before : 0 ≤ a.padBefore
  after : 0 ≤ a.padAfter

theorem lt_len_iff (ha : Plannable a) : p < a.len l ↔
    p * a.stride - a.padBefore + ((a.kernel : Int) - 1) * a.dilation < l + a.padAfter := by
  have hs : (0 : Int) < a.stride := by exact_mod_cast ha.stride
  have hcomm : (a.dilation : Int) * ((a.kernel : Int) - 1) = ((a.kernel : Int) - 1) * a.dilation := mul_comm _ _
  rw [ConvAxis.len, convLen, Int.lt_add_one_iff, Int.le_ediv_iff_mul_le hs, hcomm]
  omega

theorem conv_aligned (ha : Plannable a) (hg : Aligned g n n' l l') :
    Aligned (convPatch a g) n n' (a.len l) (a.len l') := by
  have hs : (0 : Int) < a.stride := by exact_mod_cast ha.stride
  have hinside : ∀ {n l : Int}, (∀ q, q * g.stride + g.tail ≤ n → q < l) →
      ∀ q, q * (convPatch a g).stride + (convPatch a g).tail ≤ n → q < a.len l := by
    intro n l hin q hq
    rw [lt_len_iff ha]
    have hlast := hin (q * a.stride - a.padBefore + ((a.kernel : Int) - 1) * a.dilation) (by
      have heq : (q * a.stride - a.padBefore + ((a.kernel : Int) - 1) * a.dilation) * g.stride + g.tail =
          q * (convPatch a g).stride + (convPatch a g).tail := by
        rw [convPatch]
        ring
      rw [heq]
      exact hq)
    have hafter := ha.after
    omega
  refine ⟨mul_pos hg.stride hs, ?_, ?_, hinside hg.inside, hinside hg.inside', fun hdvd => ?_⟩
  · exact add_nonneg hg.lead (mul_nonneg ha.before hg.stride.le)
  · have hkernel : (0 : Int) ≤ (a.kernel : Int) - 1 := by
      have := ha.kernel
      omega
    have hspan : 0 ≤ ((a.kernel : Int) - 1) * a.dilation * g.stride :=
      mul_nonneg (mul_nonneg hkernel (Int.natCast_nonneg _)) hg.stride.le
    have hwide := hg.wide
    rw [convPatch]
    linarith
  · have hmoved := hg.moved ((Dvd.intro _ rfl).trans hdvd)
    obtain ⟨m, hm⟩ := hdvd
    have hlen : l = l' + a.stride * m := by
      have hcancel : (l - l') * g.stride = (a.stride * m) * g.stride := by
        rw [hmoved, hm, convPatch]
        ring
      have hdiff := mul_right_cancel₀ hg.stride.ne' hcancel
      omega
    have hshift : a.len l = a.len l' + m := by
      rw [ConvAxis.len, convLen, ConvAxis.len, convLen, hlen]
      have hsum : l' + a.stride * m + a.padBefore + a.padAfter - (a.dilation : Int) * ((a.kernel : Int) - 1) - 1 =
          l' + a.padBefore + a.padAfter - (a.dilation : Int) * ((a.kernel : Int) - 1) - 1 + a.stride * m := by ring
      rw [hsum, Int.add_mul_ediv_left _ _ hs.ne']
      ring
    rw [hshift, hm]
    ring

theorem join_aligned (hg : Aligned g n n' l l') : Aligned (join g h) n n' l l' := by
  refine ⟨hg.stride, hg.lead.trans (le_max_left _ _), hg.wide.trans ?_, fun q hq => ?_, fun q hq => ?_, hg.moved⟩
  · exact add_le_add (le_max_left _ _) (le_max_left _ _)
  · apply hg.inside
    rw [join] at hq
    have hmax := le_max_left g.tail h.tail
    dsimp only at hq
    omega
  · apply hg.inside'
    rw [join] at hq
    have hmax := le_max_left g.tail h.tail
    dsimp only at hq
    omega

theorem Twin.of_le (ht : Twin h n n' p p' d) (hlead : g.lead ≤ h.lead) (htail : g.tail ≤ h.tail)
    (hstride : g.stride = h.stride) : Twin g n n' p p' d := by
  obtain ⟨hshift, htop, hbottom⟩ := ht
  rw [← hstride] at hshift htop hbottom
  refine ⟨hshift, htop.imp id fun ht => ?_, hbottom.imp id fun hb => ?_⟩
  · exact ⟨hlead.trans ht.1, hlead.trans ht.2⟩
  · omega

theorem twin_left (ht : Twin (join g h) n n' p p' d) : Twin g n n' p p' d :=
  ht.of_le (le_max_left _ _) (le_max_left _ _) rfl

theorem twin_right (ht : Twin (join g h) n n' p p' d) (hstride : g.stride = h.stride) : Twin h n n' p p' d :=
  ht.of_le (le_max_right _ _) (le_max_right _ _) hstride.symm

theorem interior_left (hi : Interior (join g h) n p) : Interior g n p := by
  rw [Interior, join] at hi
  dsimp only at hi
  have hlead := le_max_left g.lead h.lead
  have htail := le_max_left g.tail h.tail
  exact ⟨hlead.trans hi.1, by omega⟩

theorem interior_right (hi : Interior (join g h) n p) (hstride : g.stride = h.stride) : Interior h n p := by
  rw [Interior, join] at hi
  dsimp only at hi
  have hlead := le_max_right g.lead h.lead
  have htail := le_max_right g.tail h.tail
  rw [hstride] at hi
  exact ⟨hlead.trans hi.1, by omega⟩

theorem place_mul (p k : Nat) : a.place p k * g.stride =
    (p : Int) * (convPatch a g).stride + ((k : Int) * a.dilation - a.padBefore) * g.stride := by
  rw [ConvAxis.place, convPatch]
  ring

theorem tap_bounds (hg : 0 < g.stride) {k : Nat} (hk : k < a.kernel) (p : Nat) :
    (p : Int) * (convPatch a g).stride - (convPatch a g).lead ≤ a.place p k * g.stride - g.lead ∧
      a.place p k * g.stride + g.tail ≤ (p : Int) * (convPatch a g).stride + (convPatch a g).tail := by
  have hlow : (0 : Int) ≤ (k : Int) * a.dilation * g.stride := by positivity
  have hhigh : (k : Int) * a.dilation * g.stride ≤ ((a.kernel : Int) - 1) * a.dilation * g.stride := by
    have hk' : (k : Int) ≤ (a.kernel : Int) - 1 := by omega
    have hd : (0 : Int) ≤ a.dilation := Int.natCast_nonneg _
    exact mul_le_mul_of_nonneg_right (mul_le_mul_of_nonneg_right hk' hd) hg.le
  rw [place_mul, convPatch]
  constructor
  · linarith
  · linarith

theorem place_twin (hg : 0 < g.stride) {k : Nat} (hk : k < a.kernel) {p p' : Nat}
    (ht : Twin (convPatch a g) n n' p p' d) : Twin g n n' (a.place p k) (a.place p' k) d := by
  obtain ⟨hlow, hhigh⟩ := tap_bounds (a := a) hg hk p
  obtain ⟨hlow', hhigh'⟩ := tap_bounds (a := a) hg hk p'
  refine ⟨?_, ht.top.imp id fun htop => ?_, ht.bottom.imp id fun hbottom => ?_⟩
  · have hsub : (a.place p k - a.place p' k) * g.stride = a.place p k * g.stride - a.place p' k * g.stride := sub_mul _ _ _
    rw [hsub, place_mul, place_mul, ht.shift]
    ring
  · constructor <;> linarith [htop.1, htop.2]
  · constructor <;> linarith [hbottom.1, hbottom.2]

theorem interior_conv (ha : Plannable a) (hg : 0 < g.stride) {p : Nat} (hi : Interior (convPatch a g) n p) :
    Interior g n (a.place p 0) := by
  obtain ⟨hlow, hhigh⟩ := tap_bounds (a := a) hg ha.kernel p
  exact ⟨by linarith [hi.1], by linarith [hi.2]⟩

theorem twin_inside (hg : Aligned g n n' l l') (hdvd : g.stride ∣ n - n') (ht : Twin g n n' q q' d) :
    (0 ≤ q ∧ q < l) ↔ (0 ≤ q' ∧ q' < l') := by
  have hpos := hg.stride
  have hsame : d = 0 → q = q' := by
    intro hd
    have hzero := ht.shift.symm.trans hd
    have := (mul_eq_zero.mp hzero).resolve_right hpos.ne'
    omega
  have hnonneg : ∀ q : Int, g.lead ≤ q * g.stride → 0 ≤ q := by
    intro q hq
    by_contra hneg
    have hmul := mul_neg_of_neg_of_pos (not_le.mp hneg) hpos
    linarith [hg.lead]
  have htop : 0 ≤ q ↔ 0 ≤ q' := by
    rcases ht.top with hd | ⟨h, h'⟩
    · rw [hsame hd]
    · exact iff_of_true (hnonneg q h) (hnonneg q' h')
  have hbottom : q < l ↔ q' < l' := by
    rcases ht.bottom with hd | ⟨h, h'⟩
    · have hmoved := hg.moved hdvd
      have heq : (q - q') * g.stride = (l - l') * g.stride := by rw [← ht.shift, hd, hmoved]
      have hdiff := mul_right_cancel₀ hpos.ne' heq
      constructor <;> intro hlt <;> omega
    · exact iff_of_true (hg.inside q h) (hg.inside' q' h')
  rw [htop, hbottom]

theorem interior_mem (hg : Aligned g n n' l l') (hi : Interior g n' p) : 0 ≤ p ∧ p < l' := by
  refine ⟨?_, hg.inside' p hi.2⟩
  by_contra hneg
  have hmul := mul_neg_of_neg_of_pos (not_le.mp hneg) hg.stride
  linarith [hi.1, hg.lead]

end Onnxsim.Certify.Patches

namespace Onnxsim.Certify.Twins

open List Lib.Results Overflow.Arrays Windows
  Shrinking Patches

variable {𝕜 : Type} {space : Space 𝕜} {cut : Nat → Bool}

def isElementwise : OpType → Bool
  | .batchNormalization | .identity | .relu | .clip | .neg => true
  | _ => false

def isBinary : OpType → Bool
  | .add | .sub | .mul => true
  | _ => false

def IsLeaf (space : Space 𝕜) (cut : Nat → Bool) (i : Nat) : Prop :=
  (∃ name, space.defs[i]? = some (.input name)) ∨
    ∃ domain name attrs inputs out, space.defs[i]? = some (.op domain name attrs inputs out) ∧ cut i = true

/-- The tensors that the shrinking accepts, with their patches and the leaves under them. -/
inductive Local (space : Space 𝕜) (cut : Nat → Bool) : Nat → Axis × Axis → List Nat → Prop
  | leaf {i : Nat} (hleaf : IsLeaf space cut i) : Local space cut i (unitAxis, unitAxis) [i]
  | conv {i x w : Nat} {domain : String} {attrs : Attrs 𝕜} {inputs : List (Option Nat)} {out : Nat} {rest : List Nat}
      {weight : NDArray 𝕜} {h v : ConvAxis} {g : Axis × Axis} {ls : List Nat}
      (hdef : space.defs[i]? = some (.op domain .conv attrs inputs out)) (hcut : cut i = false)
      (hins : presentInputs inputs = x :: w :: rest) (hweight : space.defs[w]? = some (.const weight))
      (hpads : attrs.pads.any (· < 0) = false)
      (hh : convAxis attrs weight.shape 0 = .ok h) (hv : convAxis attrs weight.shape 1 = .ok v)
      (hx : Local space cut x g ls) : Local space cut i (convPatch h g.1, convPatch v g.2) ls
  | elementwise {i x : Nat} {domain : String} {name : OpType} {attrs : Attrs 𝕜} {inputs : List (Option Nat)} {out : Nat}
      {rest : List Nat} {g : Axis × Axis} {ls : List Nat}
      (hdef : space.defs[i]? = some (.op domain name attrs inputs out))
      (hcut : cut i = false) (hname : isElementwise name = true) (hins : presentInputs inputs = x :: rest)
      (hconst : isConst space x = false) (hrest : rest.all (isConst space) = true) (hx : Local space cut x g ls) :
      Local space cut i g ls
  | withConst {i x y z : Nat} {domain : String} {name : OpType} {attrs : Attrs 𝕜} {inputs : List (Option Nat)} {out : Nat}
      {g : Axis × Axis} {c : NDArray 𝕜} {ls : List Nat} (hdef : space.defs[i]? = some (.op domain name attrs inputs out))
      (hcut : cut i = false) (hname : isBinary name = true) (hins : presentInputs inputs = [x, y])
      (hsides : (z = x ∧ space.defs[y]? = some (.const c)) ∨ (z = y ∧ space.defs[x]? = some (.const c)))
      (hconst : isConst space z = false) (huniform : uniformConst c.shape = true) (hz : Local space cut z g ls) :
      Local space cut i g ls
  | both {i x y : Nat} {domain : String} {name : OpType} {attrs : Attrs 𝕜} {inputs : List (Option Nat)} {out : Nat}
      {g h : Axis × Axis} {ls ls' : List Nat} (hdef : space.defs[i]? = some (.op domain name attrs inputs out))
      (hcut : cut i = false) (hname : isBinary name = true) (hins : presentInputs inputs = [x, y])
      (hxconst : isConst space x = false) (hyconst : isConst space y = false)
      (hstrides : g.1.stride = h.1.stride ∧ g.2.stride = h.2.stride)
      (hx : Local space cut x g ls) (hy : Local space cut y h ls') :
      Local space cut i (join g.1 h.1, join g.2 h.2) (ls ++ ls')

variable {i out : Nat} {ls' ls : List Nat} {walk : Nat → Leaves (Axis × Axis)} {inputs : List (Option Nat)}
    {attrs : Attrs 𝕜} {domain : String} {name : OpType}

theorem isConst_eq_true (h : isConst space i = true) : ∃ v, space.defs[i]? = some (.const v) := by
  rw [isConst] at h
  split at h
  · next v hv => exact ⟨v, hv⟩
  · cases h

/-- The leaves under an accepted tensor are added to those that a walk has. -/
def Adds (space : Space 𝕜) (cut : Nat → Bool) (i : Nat) (g : Axis × Axis) (ls ls' : List Nat) : Prop :=
  ∃ under, Local space cut i g under ∧ ∀ j, j ∈ ls' ↔ j ∈ ls ∨ j ∈ under

def Accepts (space : Space 𝕜) (cut : Nat → Bool) (walk : Nat → Leaves (Axis × Axis)) : Prop :=
  ∀ i ls g ls', walk i ls = .ok (g, ls') → Adds space cut i g ls ls'

theorem orNoShrink_eq_ok {α : Type} {x : Except String α} {a : α} (h : orNoShrink x ls = .ok (a, ls')) :
    x = .ok a ∧ ls' = ls := by
  cases x with
  | error e => cases h
  | ok b =>
    cases h
    exact ⟨rfl, rfl⟩

theorem addLeaf_eq_ok {u : Unit} (h : addLeaf i ls = .ok (u, ls')) : ∀ j, j ∈ ls' ↔ j ∈ ls ∨ j ∈ [i] := by
  rw [addLeaf] at h
  cases h
  intro j
  split
  · next hmem =>
    rw [mem_singleton, or_iff_left_of_imp]
    rintro rfl
    exact hmem
  · rw [mem_append]

variable {g : Axis × Axis}

theorem convGeo_spec (hwalk : Accepts space cut walk)
    (hdef : space.defs[i]? = some (.op domain .conv attrs inputs out)) (hcut : cut i = false)
    (h : convGeo space walk attrs (presentInputs inputs) ls = .ok (g, ls')) :
    Adds space cut i g ls ls' := by
  cases hins : presentInputs inputs with
  | nil =>
    rw [hins] at h
    cases h
  | cons x tail =>
    cases tail with
    | nil =>
      rw [hins] at h
      cases h
    | cons w rest =>
      rw [hins, convGeo] at h
      split at h
      · cases h
      cases hw : space.defs[w]? with
      | none =>
        rw [hw] at h
        cases h
      | some d =>
        rw [hw] at h
        cases d with
        | input name => cases h
        | op domain name attrs inputs out => cases h
        | const weight =>
          dsimp only at h
          split at h
          · cases h
          split at h
          · cases h
          split at h
          · cases h
          next hpads =>
          obtain ⟨gx, ls₁, hx, h₁⟩ := stateT_bind_eq_ok h
          obtain ⟨a₀, ls₂, ha₀, h₂⟩ := stateT_bind_eq_ok h₁
          obtain ⟨a₁, ls₃, ha₁, h₃⟩ := stateT_bind_eq_ok h₂
          obtain ⟨hh, rfl⟩ := orNoShrink_eq_ok ha₀
          obtain ⟨hv, rfl⟩ := orNoShrink_eq_ok ha₁
          cases h₃
          obtain ⟨under, hlocal, hleaves⟩ := hwalk x ls gx _ hx
          exact ⟨under, .conv hdef hcut hins hw (Bool.not_eq_true _ ▸ hpads) hh hv hlocal, hleaves⟩

theorem unaryGeo_spec (hwalk : Accepts space cut walk)
    (hdef : space.defs[i]? = some (.op domain name attrs inputs out)) (hcut : cut i = false)
    (hname : isElementwise name = true) (h : unaryGeo space walk (presentInputs inputs) ls = .ok (g, ls')) :
    Adds space cut i g ls ls' := by
  cases hins : presentInputs inputs with
  | nil =>
    rw [hins] at h
    cases h
  | cons x rest =>
    rw [hins, unaryGeo] at h
    split at h
    · cases h
    · next hconst =>
      rw [Bool.not_eq_true, Bool.or_eq_false_iff, Bool.not_eq_false'] at hconst
      obtain ⟨under, hlocal, hleaves⟩ := hwalk x ls g ls' h
      exact ⟨under, .elementwise hdef hcut hname hins hconst.1 hconst.2 hlocal, hleaves⟩

theorem uniform_of_operands {ins : List Nat} (h : uniformOperands space ins = true) {x : Nat} (hx : x ∈ ins)
    {v : NDArray 𝕜} (hv : space.defs[x]? = some (.const v)) : uniformConst v.shape = true := by
  have hall := List.all_eq_true.mp h x hx
  rw [hv] at hall
  exact hall

theorem binaryGeo_spec (hwalk : Accepts space cut walk)
    (hdef : space.defs[i]? = some (.op domain name attrs inputs out)) (hcut : cut i = false)
    (hname : isBinary name = true) (h : binaryGeo space walk (presentInputs inputs) ls = .ok (g, ls')) :
    Adds space cut i g ls ls' := by
  match hins : presentInputs inputs with
  | [] | [_] | _ :: _ :: _ :: _ =>
    rw [hins] at h
    cases h
  | [x, y] =>
    rw [hins, binaryGeo] at h
    split at h
    · cases h
    next hnotboth =>
    split at h
    · cases h
    next huniform =>
    rw [Bool.not_eq_true, Bool.not_eq_false'] at huniform
    split at h
    · next hy =>
      obtain ⟨v, hv⟩ := isConst_eq_true hy
      have hx : isConst space x = false := by
        rw [hy, Bool.and_true, Bool.not_eq_true] at hnotboth
        exact hnotboth
      obtain ⟨under, hlocal, hleaves⟩ := hwalk x ls g ls' h
      have hv' := uniform_of_operands huniform (mem_cons_of_mem _ mem_cons_self) hv
      exact ⟨under, .withConst hdef hcut hname hins (.inl ⟨rfl, hv⟩) hx hv' hlocal, hleaves⟩
    next hy =>
    split at h
    · next hx =>
      obtain ⟨v, hv⟩ := isConst_eq_true hx
      obtain ⟨under, hlocal, hleaves⟩ := hwalk y ls g ls' h
      have hv' := uniform_of_operands huniform mem_cons_self hv
      exact ⟨under, .withConst hdef hcut hname hins (.inr ⟨rfl, hv⟩) (Bool.not_eq_true _ ▸ hy) hv' hlocal, hleaves⟩
    next hx =>
    obtain ⟨gx, ls₁, hgx, h₁⟩ := stateT_bind_eq_ok h
    obtain ⟨gy, ls₂, hgy, h₂⟩ := stateT_bind_eq_ok h₁
    split at h₂
    · cases h₂
    · next hstrides =>
      cases h₂
      obtain ⟨under, hlocal, hleaves⟩ := hwalk x ls gx ls₁ hgx
      obtain ⟨under', hlocal', hleaves'⟩ := hwalk y ls₁ gy _ hgy
      rw [not_or, not_not, not_not] at hstrides
      refine ⟨under ++ under', .both hdef hcut hname hins (Bool.not_eq_true _ ▸ hx) (Bool.not_eq_true _ ▸ hy) hstrides
        hlocal hlocal', fun j => ?_⟩
      rw [hleaves', hleaves, mem_append, or_assoc]

theorem geo_accepts (fuel : Nat) : Accepts space cut (geo space cut fuel) := by
  induction fuel with
  | zero => exact fun i ls g ls' h => by cases h
  | succ fuel ih =>
    intro i ls g ls' h
    rw [geo] at h
    cases hdef : space.defs[i]? with
    | none =>
      rw [hdef] at h
      cases h
    | some d =>
      rw [hdef] at h
      cases d with
      | const v => cases h
      | input name =>
        obtain ⟨u, ls₁, hadd, h₁⟩ := stateT_bind_eq_ok h
        cases h₁
        exact ⟨[i], .leaf (.inl ⟨name, hdef⟩), addLeaf_eq_ok hadd⟩
      | op domain name attrs inputs out =>
        dsimp only at h
        split at h
        · next hcut =>
          obtain ⟨u, ls₁, hadd, h₁⟩ := stateT_bind_eq_ok h
          cases h₁
          exact ⟨[i], .leaf (.inr ⟨domain, name, attrs, inputs, out, hdef, hcut⟩), addLeaf_eq_ok hadd⟩
        next hcut =>
        have hcut' : cut i = false := Bool.not_eq_true _ ▸ hcut
        split at h
        · cases h
        cases name with
        | conv => exact convGeo_spec ih hdef hcut' h
        | batchNormalization | identity | relu | clip | neg => exact unaryGeo_spec ih hdef hcut' rfl h
        | add | sub | mul => exact binaryGeo_spec ih hdef hcut' rfl h
        | other name => cases h

end Onnxsim.Certify.Twins
