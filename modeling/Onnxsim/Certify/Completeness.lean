import Onnxsim.Certify.TwinWindows

namespace Onnxsim.Certify.Plans

open List Lib.Results Windows Shrinking
  Patches Twins TwinGrids TwinWindows

section

variable {𝕜 : Type} {space : Space 𝕜} {cut : Nat → Bool} {ls : List Nat} {i : Nat} {g : Axis × Axis}

theorem slen_aligned (hlocal : Local space cut i g ls) {n n' l l' : Int} {s s' : Nat} :
    (slen space cut 0 n s i = .ok l → slen space cut 0 n' s' i = .ok l' → Aligned g.1 n n' l l') ∧
      (slen space cut 1 n s i = .ok l → slen space cut 1 n' s' i = .ok l' → Aligned g.2 n n' l l') := by
  induction hlocal generalizing s s' l l' with
  | leaf hleaf =>
    constructor
    · intro hl hl'
      rw [slen_leaf hleaf hl, slen_leaf hleaf hl']
      exact aligned_unit n n'
    · intro hl hl'
      rw [slen_leaf hleaf hl, slen_leaf hleaf hl']
      exact aligned_unit n n'
  | conv hdef hcut hins hweight hpads hh hv _ ih =>
    have hkernel := space.kernels _ _ _ _ _ _ _ _ _ hdef hins hweight
    constructor
    · intro hl hl'
      obtain ⟨f, lx, hx, rfl⟩ := slen_conv hdef hcut hins hweight hh hl
      obtain ⟨f', lx', hx', rfl⟩ := slen_conv hdef hcut hins hweight hh hl'
      exact conv_aligned (convAxis_plannable hkernel hpads hh) (ih.1 hx hx')
    · intro hl hl'
      obtain ⟨f, lx, hx, rfl⟩ := slen_conv hdef hcut hins hweight hv hl
      obtain ⟨f', lx', hx', rfl⟩ := slen_conv hdef hcut hins hweight hv hl'
      exact conv_aligned (convAxis_plannable hkernel hpads hv) (ih.2 hx hx')
  | elementwise hdef hcut hname hins hconst _ _ ih =>
    have hmem := hins ▸ mem_cons_self
    have hthrough := through_operand hdef hcut (ne_conv (.inl hname)) hmem hconst
    exact ⟨hthrough fun hx hx' => ih.1 hx hx', hthrough fun hx hx' => ih.2 hx hx'⟩
  | withConst hdef hcut hname hins hsides hconst _ _ ih =>
    have hmem := mem_sides hins hsides
    have hthrough := through_operand hdef hcut (ne_conv (.inr hname)) hmem hconst
    exact ⟨hthrough fun hx hx' => ih.1 hx hx', hthrough fun hx hx' => ih.2 hx hx'⟩
  | both hdef hcut hname hins hxconst _ _ _ _ ihx _ =>
    have hmem := hins ▸ mem_cons_self
    have hthrough := through_operand hdef hcut (ne_conv (.inr hname)) hmem hxconst
    exact ⟨hthrough fun hx hx' => join_aligned (ihx.1 hx hx'), hthrough fun hx hx' => join_aligned (ihx.2 hx hx')⟩

end

variable {𝕜 : Type} {space : Space 𝕜} {cut : Nat → Bool} {fuel a b ax : Nat} {g : Axis} {n : Int}

/-- An extent at which no position is affected by both borders, and some position by none. -/
structure Safe (g : Axis) (n l : Int) : Prop where
  apart : ∀ p : Nat, (p : Int) < l → p * g.stride < g.lead → p * g.stride + g.tail ≤ n
  interior : ∃ p : Nat, (p : Int) < l ∧ Interior g n p

theorem topAffected_eq_false {p : Int} : topAffected g p = false ↔ g.lead ≤ p * g.stride := by
  rw [topAffected, decide_eq_false_iff_not, not_lt, Int.sub_nonneg]

theorem bottomAffected_eq_false {p : Int} : bottomAffected g n p = false ↔ p * g.stride + g.tail ≤ n := by
  rw [bottomAffected, decide_eq_false_iff_not, not_lt]

theorem mem_positions {l : Int} {p : Nat} (hp : (p : Int) < l) :
    (p : Int) ∈ (List.range l.toNat).map fun p : Nat => (p : Int) :=
  List.mem_map.mpr ⟨p, mem_range.mpr (by omega), rfl⟩

theorem classify_eq_some {c : Int × Nat × Nat} (h : classify space cut fuel g a b ax n = .ok (some c)) :
    slen space cut ax n fuel a = .ok c.1 ∧ slen space cut ax n fuel b = .ok c.1 ∧ Safe g n c.1 := by
  obtain ⟨la, hla, h₁⟩ := bind_eq_ok h
  obtain ⟨lb, hlb, h₂⟩ := bind_eq_ok h₁
  split at h₂
  · cases h₂
  next hlen =>
  dsimp only at h₂
  split at h₂
  · cases h₂
  next hapart =>
  split at h₂
  · cases h₂
  next hinterior =>
  cases h₂
  rw [not_or, not_not] at hlen
  obtain ⟨rfl, -⟩ := hlen
  refine ⟨hla, hlb, ?_, ?_⟩
  · intro p hp htop
    rw [Bool.not_eq_true, List.any_eq_false] at hapart
    have hnot := hapart p (mem_positions hp)
    have htop' : topAffected g p = true := by
      rw [topAffected, decide_eq_true_iff]
      omega
    rw [htop', Bool.true_and, Bool.not_eq_true] at hnot
    exact bottomAffected_eq_false.mp hnot
  · rw [Bool.not_eq_true, List.all_eq_false] at hinterior
    obtain ⟨q, hq, hnone⟩ := hinterior
    obtain ⟨p, hp, rfl⟩ := List.mem_map.mp hq
    have hlt := mem_range.mp hp
    rw [Bool.not_eq_true, Bool.or_eq_false_iff] at hnone
    exact ⟨p, by omega, topAffected_eq_false.mp hnone.1, bottomAffected_eq_false.mp hnone.2⟩

theorem bestExtent_eq_ok {full : Int × Nat × Nat} {ks : List Nat} {best m : Int}
    (h : bestExtent space cut fuel g a b ax n full ks best = .ok m) :
    m = best ∨ ∃ k ∈ ks, m = n - k * g.stride ∧ 1 ≤ m ∧ ∃ c, classify space cut fuel g a b ax m = .ok (some c) := by
  induction ks generalizing best with
  | nil =>
    cases h
    exact .inl rfl
  | cons k rest ih =>
    rw [bestExtent] at h
    split at h
    · cases h
      exact .inl rfl
    next hpos =>
    obtain ⟨c, hc, h₁⟩ := bind_eq_ok h
    rcases ih h₁ with hm | ⟨k', hk', hrest⟩
    · split at hm
      · next hsome =>
        cases c with
        | none => cases hsome
        | some c =>
          rw [hm]
          exact .inr ⟨k, mem_cons_self, rfl, by omega, c, hc⟩
      · exact .inl hm
    · exact .inr ⟨k', mem_cons_of_mem _ hk', hrest⟩

/-- A successful plan of one axis. -/
structure AxisPlan (space : Space 𝕜) (cut : Nat → Bool) (fuel a b ax : Nat) (g : Axis) (n n' : Nat) (l l' : Int) : Prop where
  left : slen space cut ax n fuel a = .ok l
  right : slen space cut ax n fuel b = .ok l
  left' : slen space cut ax n' fuel a = .ok l'
  right' : slen space cut ax n' fuel b = .ok l'
  safe : Safe g n l
  safe' : Safe g n' l'
  positive : 1 ≤ n'
  step : ∃ k : Nat, 1 ≤ k ∧ (n : Int) = n' + k * g.stride

theorem shrinkAxis_eq_ok {n n' : Nat} (h : shrinkAxis space cut fuel g a b ax n = .ok n') :
    ∃ l l', AxisPlan space cut fuel a b ax g n n' l l' := by
  obtain ⟨c, hc, h₁⟩ := bind_eq_ok h
  cases c with
  | none => cases h₁
  | some full =>
    dsimp only at h₁
    split at h₁
    · cases h₁
    obtain ⟨m, hm, h₂⟩ := bind_eq_ok h₁
    split at h₂
    · cases h₂
    next hne =>
    cases h₂
    rcases bestExtent_eq_ok hm with heq | ⟨k, hk, heq, hpos, c', hc'⟩
    · exact absurd heq hne
    · obtain ⟨hleft, hright, hsafe⟩ := classify_eq_some hc
      obtain ⟨hleft', hright', hsafe'⟩ := classify_eq_some hc'
      obtain ⟨j, hj, rfl⟩ := List.mem_map.mp hk
      have hcast : ((m.toNat : Nat) : Int) = m := Int.toNat_of_nonneg (by omega)
      refine ⟨full.1, c'.1, hleft, hright, ?_, ?_, hsafe, ?_, by omega, j + 1, by omega, ?_⟩
      · rw [hcast]
        exact hleft'
      · rw [hcast]
        exact hright'
      · rw [hcast]
        exact hsafe'
      · rw [hcast, heq]
        ring

variable {n' l l' : Int} {k : Nat}

def fullPosition (g : Axis) (n n' : Int) (p : Nat) : Nat :=
  if bottomAffected g n' p then p + ((n - n') / g.stride).toNat else p

def fullShift (g : Axis) (n n' : Int) (p : Nat) : Int := if bottomAffected g n' p then n - n' else 0

theorem lens_apart (hg : Aligned g n n' l l') (hk : n = n' + k * g.stride) : l = l' + k := by
  have hmoved := hg.moved ⟨k, by rw [hk]; ring⟩
  have heq : (l - l') * g.stride = k * g.stride := by rw [hmoved, hk]; ring
  have hcancel := mul_right_cancel₀ hg.stride.ne' heq
  omega

theorem lt_of_mul_lt {p q : Int} (hg : 0 < g.stride) (h : p * g.stride < q * g.stride) : p < q :=
  lt_of_mul_lt_mul_right h hg.le

theorem exists_twin (hg : Aligned g n n' l l') (hk : n = n' + k * g.stride) (hsafe : Safe g n l) (hsafe' : Safe g n' l')
    {p : Nat} (hp : (p : Int) < l) : ∃ p' : Nat, (p' : Int) < l' ∧ ∃ d, Twin g n n' p p' d := by
  have hlens := lens_apart hg hk
  have hks : 0 ≤ k * g.stride := mul_nonneg (Int.natCast_nonneg k) hg.stride.le
  obtain ⟨q, hq, hlead, htail⟩ := hsafe'.interior
  by_cases htop : (p : Int) * g.stride < g.lead
  · -- a position at the top stays where it is
    have hpq : (p : Int) < q := lt_of_mul_lt hg.stride (htop.trans_le hlead)
    refine ⟨p, by omega, 0, by ring, .inl rfl, .inr ⟨hsafe.apart p hp htop, hsafe'.apart p (by omega) htop⟩⟩
  by_cases hbottom : n < (p : Int) * g.stride + g.tail
  · -- a position at the bottom keeps its distance to the end
    have hmove : ((p : Int) - k) * g.stride = p * g.stride - k * g.stride := by ring
    have hqp : (q : Int) < p - k := by
      apply lt_of_mul_lt hg.stride
      rw [hmove]
      omega
    have hcast : ((p - k : Nat) : Int) = p - k := by omega
    refine ⟨p - k, by omega, n - n', ?_, .inr ⟨not_lt.mp htop, ?_⟩, .inl rfl⟩
    · rw [hcast, hk]
      ring
    · by_contra hlow
      have hnot := hsafe'.apart (p - k) (by omega) (not_le.mp hlow)
      rw [hcast, hmove] at hnot
      omega
  · exact ⟨q, hq, _, rfl, .inr ⟨not_lt.mp htop, hlead⟩, .inr ⟨not_lt.mp hbottom, htail⟩⟩

theorem fullPosition_twin (hg : Aligned g n n' l l') (hk : n = n' + k * g.stride) (hsafe' : Safe g n' l') {p : Nat}
    (hp : (p : Int) < l') :
    (fullPosition g n n' p : Int) < l ∧ Twin g n n' (fullPosition g n n' p) p (fullShift g n n' p) := by
  have hlens := lens_apart hg hk
  have hks : 0 ≤ k * g.stride := mul_nonneg (Int.natCast_nonneg k) hg.stride.le
  have hsteps : ((n - n') / g.stride).toNat = k := by
    have hdiff : n - n' = k * g.stride := by rw [hk]; ring
    rw [hdiff, Int.mul_ediv_cancel _ hg.stride.ne', Int.toNat_natCast]
  rw [fullPosition, fullShift]
  by_cases hbottom : bottomAffected g n' p = true
  · rw [if_pos hbottom, if_pos hbottom, hsteps]
    have hafter := of_decide_eq_true hbottom
    have hlead : g.lead ≤ (p : Int) * g.stride := by
      by_contra hlow
      have hnot := hsafe'.apart p hp (not_le.mp hlow)
      omega
    have hmove : ((p + k : Nat) : Int) * g.stride = p * g.stride + k * g.stride := by
      push_cast
      ring
    refine ⟨by omega, ?_, .inr ⟨by omega, hlead⟩, .inl rfl⟩
    rw [hk]
    push_cast
    ring
  · rw [if_neg hbottom, if_neg hbottom]
    rw [Bool.not_eq_true, bottomAffected_eq_false] at hbottom
    exact ⟨by omega, by ring, .inl rfl, .inr ⟨by omega, hbottom⟩⟩

end Onnxsim.Certify.Plans

namespace Onnxsim.Certify.Completeness

open Lib.Results Windows
  Shrinking Patches Twins TwinGrids
  TwinWindows TwinEncodings Plans

variable {𝕜 : Type} {space : Space 𝕜} {cut : Nat → Bool} {fuel a b : Nat} {ranges : InputRanges 𝕜} {red : Reduction}

def sizes (space : Space 𝕜) (red : Reduction) : Leafs where
  batch i := ((space.shape i).getD [])[0]?.getD 0
  channels i := ((space.shape i).getD [])[1]?.getD 0
  full := red.fullHw
  reduced := red.reducedHw

theorem commonSize_eq_ok {shapes : List (Option (List Nat))} {hw : Nat × Nat} (h : commonSize shapes = .ok hw) :
    ∀ s ∈ shapes, ∃ n c, s = some [n, c, hw.1, hw.2] := by
  unfold commonSize at h
  split at h
  · cases h
  · next n c y x rest =>
    split at h
    · next hranks =>
      split at h
      · next hsame =>
        cases h
        intro s hs
        rcases List.mem_cons.mp hs with rfl | hs
        · exact ⟨n, c, rfl⟩
        · have hrank := List.all_eq_true.mp hranks s hs
          have hdrop := of_decide_eq_true (List.all_eq_true.mp hsame s hs)
          split at hrank
          · cases hdrop
            exact ⟨_, _, rfl⟩
          · cases hrank
      · cases h
    · cases h
  · cases h

/-- What a successful plan knows about the two roots, over the leaves `la` and `lb`. -/
structure Planned (space : Space 𝕜) (cut : Nat → Bool) (fuel a b : Nat) (ranges : InputRanges 𝕜) (red : Reduction)
    (ga gb : Axis × Axis) (la lb : List Nat) : Prop where
  left : Local space cut a ga la
  right : Local space cut b gb lb
  leaves : ∀ j, j ∈ red.leaves ↔ j ∈ la ∨ j ∈ lb
  stride : ga.1.stride = gb.1.stride ∧ ga.2.stride = gb.2.stride
  axes : red.axes = (join ga.1 gb.1, join ga.2 gb.2)
  shapes : ∀ j ∈ red.leaves, ∃ n c, space.shape j = some [n, c, red.fullHw.1, red.fullHw.2]
  uniform : ∀ j ∈ red.leaves, (leafRange space ranges j).all uniformRange = true
  rows : ∃ l l', AxisPlan space cut fuel a b 0 red.axes.1 red.fullHw.1 red.reducedHw.1 l l'
  cols : ∃ l l', AxisPlan space cut fuel a b 1 red.axes.2 red.fullHw.2 red.reducedHw.2 l l'

theorem planReduction_eq_ok (h : planReduction space cut fuel a b ranges = .ok red) :
    ∃ ga gb la lb, Planned space cut fuel a b ranges red ga gb la lb := by
  obtain ⟨⟨⟨ga, gb⟩, ls⟩, hgeo, h₁⟩ := bind_eq_ok h
  obtain ⟨ga', ls₁, hga, hgeo₁⟩ := stateT_bind_eq_ok hgeo
  obtain ⟨gb', ls₂, hgb, hgeo₂⟩ := stateT_bind_eq_ok hgeo₁
  cases hgeo₂
  dsimp only at h₁
  split at h₁
  · cases h₁
  next hstride =>
  rw [not_or, not_not, not_not] at hstride
  obtain ⟨hw, hsize, h₂⟩ := bind_eq_ok h₁
  split at h₂
  · cases h₂
  next huniform =>
  rw [Bool.not_eq_true, Bool.not_eq_false'] at huniform
  obtain ⟨h', hh, h₃⟩ := bind_eq_ok h₂
  obtain ⟨w', hw', h₄⟩ := bind_eq_ok h₃
  cases h₄
  obtain ⟨la, hla, hleaves⟩ := geo_accepts fuel a _ _ _ hga
  obtain ⟨lb, hlb, hleaves'⟩ := geo_accepts fuel b _ _ _ hgb
  refine ⟨ga, gb, la, lb, hla, hlb, fun j => ?_, hstride, rfl, fun j hj => ?_, fun j hj => ?_, ?_, ?_⟩
  · rw [hleaves', hleaves, or_iff_right List.not_mem_nil]
  · exact commonSize_eq_ok hsize _ (List.mem_map_of_mem hj)
  · exact List.all_eq_true.mp huniform j hj
  · exact shrinkAxis_eq_ok hh
  · exact shrinkAxis_eq_ok hw'

theorem sizes_of_shape {i n c h w : Nat} (hshape : space.shape i = some [n, c, h, w]) :
    (sizes space red).batch i = n ∧ (sizes space red).channels i = c := by
  simp only [sizes, hshape]
  exact ⟨rfl, rfl⟩

theorem shaped_of_planned {ga gb : Axis × Axis} {la lb : List Nat} (hp : Planned space cut fuel a b ranges red ga gb la lb) :
    Shaped space (red.shape space) (sizes space red) red.leaves := by
  constructor
  · intro i hi
    obtain ⟨n, c, hshape⟩ := hp.shapes i hi
    rw [(sizes_of_shape hshape).1, (sizes_of_shape hshape).2]
    exact hshape
  · intro i hi
    obtain ⟨n, c, hshape⟩ := hp.shapes i hi
    rw [Reduction.shape, if_pos hi, hshape, (sizes_of_shape hshape).2]
    rfl

variable {ga gb g : Axis × Axis} {la lb ls : List Nat} {A A' B B' G G' : Grid 𝕜}

/-- The lengths of a root along one axis, at both extents. -/
structure AxisPair (g : Axis) (n n' l l' : Nat) : Prop where
  aligned : Aligned g n n' l l'
  safe : Safe g n l
  safe' : Safe g n' l'
  positive : 1 ≤ n'
  step : ∃ k : Nat, 1 ≤ k ∧ (n : Int) = n' + k * g.stride

theorem AxisPair.le {g : Axis} {n n' l l' : Nat} (h : AxisPair g n n' l l') : n' < n := by
  obtain ⟨k, hk, hstep⟩ := h.step
  have hpos : 0 < (k : Int) * g.stride := mul_pos (by omega) h.aligned.stride
  omega

theorem AxisPair.exists_twin {g : Axis} {n n' l l' p : Nat} (h : AxisPair g n n' l l') (hp : p < l) :
    ∃ p' < l', ∃ d, Twin g n n' p p' d := by
  obtain ⟨k, -, hstep⟩ := h.step
  obtain ⟨p', hp', ht⟩ := Plans.exists_twin h.aligned hstep h.safe h.safe' (Int.ofNat_lt.mpr hp)
  exact ⟨p', Int.ofNat_lt.mp hp', ht⟩

/-- A root at the full extents and at the reduced ones. -/
structure Root (space : Space 𝕜) (red : Reduction) (G G' : Grid 𝕜) : Prop where
  rows : AxisPair red.axes.1 red.fullHw.1 red.reducedHw.1 G.rows G'.rows
  cols : AxisPair red.axes.2 red.fullHw.2 red.reducedHw.2 G.cols G'.cols
  batch : G'.batch = 1
  channels : G'.channels = G.channels
  leaf : ∃ j ∈ red.leaves, (sizes space red).batch j = G.batch
  same : ∀ n c y y' x x' dy dx, c < G.channels → y < G.rows → y' < G'.rows → x < G.cols → x' < G'.cols →
    Twin red.axes.1 red.fullHw.1 red.reducedHw.1 y y' dy → Twin red.axes.2 red.fullHw.2 red.reducedHw.2 x x' dx →
    G.at_ (pick G.batch n) c y x = (G'.at_ 0 c y' x').rename (move (sizes space red) n dy dx)
  patch : ∀ c y x, c < G.channels → y < G'.rows → x < G'.cols →
    (G'.at_ 0 c y x).All (InPatch (sizes space red) red.leaves red.axes y x)

theorem root_of_matching (ht : Matching (sizes space red) ls g G G') (hsub : ls ⊆ red.leaves)
    (hrows : AxisPair red.axes.1 red.fullHw.1 red.reducedHw.1 G.rows G'.rows)
    (hcols : AxisPair red.axes.2 red.fullHw.2 red.reducedHw.2 G.cols G'.cols)
    (hlead : g.1.lead ≤ red.axes.1.lead ∧ g.2.lead ≤ red.axes.2.lead)
    (htail : g.1.tail ≤ red.axes.1.tail ∧ g.2.tail ≤ red.axes.2.tail)
    (hstride : g.1.stride = red.axes.1.stride ∧ g.2.stride = red.axes.2.stride) : Root space red G G' := by
  refine ⟨hrows, hcols, ht.batch', ht.channels, ?_, ?_, ?_⟩
  · obtain ⟨j, hj, hbatch⟩ := ht.leaf
    exact ⟨j, hsub hj, hbatch⟩
  · intro n c y y' x x' dy dx hc hy hy' hx hx' hty htx
    exact ht.same n c y y' x x' dy dx hc hy hy' hx hx' (hty.of_le hlead.1 htail.1 hstride.1)
      (htx.of_le hlead.2 htail.2 hstride.2)
  · intro c y x hc hy hx
    exact (ht.patch c y x hc hy hx).mono fun px hp => inPatch_join hp hsub hlead htail hstride

theorem axisPair_of_plan {g h : Axis} {ax n n' l l' : Nat} {k k' : Int} (hplan : AxisPlan space cut fuel a b ax g n n' k k')
    (hk : (l : Int) = k) (haligned : Aligned h n n' l l') (hstride : h.stride = g.stride)
    (hlens : Aligned g n n' k k') : AxisPair g n n' l l' := by
  obtain ⟨m, hm, hstep⟩ := hplan.step
  have hlong := lens_apart hlens hstep
  have hlong' := lens_apart haligned (hstride.symm ▸ hstep)
  have hk' : (l' : Int) = k' := by omega
  refine ⟨?_, ?_, ?_, hplan.positive, m, hm, hstep⟩
  · rw [hk, hk']
    exact hlens
  · rw [hk]
    exact hplan.safe
  · rw [hk']
    exact hplan.safe'

variable [Field 𝕜] {sqrt : 𝕜 → 𝕜} {f f' : Nat}

theorem roots_of_planned (hp : Planned space cut fuel a b ranges red ga gb la lb)
    (hA : encode sqrt space cut (fun _ => none) f a = .ok A) (hB : encode sqrt space cut (fun _ => none) f' b = .ok B) :
    ∃ A' B', encode sqrt space cut (red.shape space) f a = .ok A' ∧ encode sqrt space cut (red.shape space) f' b = .ok B' ∧
      Root space red A A' ∧ Root space red B B' ∧ B.rows = A.rows ∧ B.cols = A.cols ∧ B'.rows = A'.rows ∧
      B'.cols = A'.cols ∧ ∀ j ∈ red.leaves, (sizes space red).batch j = A.batch ∨ (sizes space red).batch j = B.batch ∨
        (sizes space red).batch j = 1 := by
  obtain ⟨l, l', hrows⟩ := hp.rows
  obtain ⟨m, m', hcols⟩ := hp.cols
  have haxes₁ : red.axes.1 = join ga.1 gb.1 := by rw [hp.axes]
  have haxes₂ : red.axes.2 = join ga.2 gb.2 := by rw [hp.axes]
  have hsubA : la ⊆ red.leaves := fun j hj => (hp.leaves j).mpr (.inl hj)
  have hsubB : lb ⊆ red.leaves := fun j hj => (hp.leaves j).mpr (.inr hj)
  have hshaped := shaped_of_planned hp
  obtain ⟨k, hk, hstep⟩ := hrows.step
  obtain ⟨k', hk', hstep'⟩ := hcols.step
  have hdvd : red.axes.1.stride ∣ (red.fullHw.1 : Int) - red.reducedHw.1 := ⟨k, by rw [hstep]; ring⟩
  have hdvd' : red.axes.2.stride ∣ (red.fullHw.2 : Int) - red.reducedHw.2 := ⟨k', by rw [hstep']; ring⟩
  obtain ⟨p, -, hint⟩ := hrows.safe'.interior
  obtain ⟨q, -, hint'⟩ := hcols.safe'.interior
  rw [haxes₁] at hdvd hint
  rw [haxes₂] at hdvd' hint'
  obtain ⟨A', hA', hmatchA, hrowsA, hcolsA⟩ := encode_follows (hshaped.mono hsubA) hp.left hdvd hdvd'
    ⟨p, interior_left hint⟩ ⟨q, interior_left hint'⟩ hrows.left hcols.left A hA
  obtain ⟨B', hB', hmatchB, hrowsB, hcolsB⟩ := encode_follows (hshaped.mono hsubB) hp.right (hp.stride.1 ▸ hdvd)
    (hp.stride.2 ▸ hdvd') ⟨p, interior_right hint hp.stride.1⟩ ⟨q, interior_right hint' hp.stride.2⟩ hrows.right hcols.right B hB
  have haligned : Aligned red.axes.1 red.fullHw.1 red.reducedHw.1 l l' := by
    rw [haxes₁]
    exact join_aligned ((slen_aligned hp.left).1 hrows.left hrows.left')
  have haligned' : Aligned red.axes.2 red.fullHw.2 red.reducedHw.2 m m' := by
    rw [haxes₂]
    exact join_aligned ((slen_aligned hp.left).2 hcols.left hcols.left')
  have hstrideA : ga.1.stride = red.axes.1.stride ∧ ga.2.stride = red.axes.2.stride := by
    rw [haxes₁, haxes₂]
    exact ⟨rfl, rfl⟩
  have hstrideB : gb.1.stride = red.axes.1.stride ∧ gb.2.stride = red.axes.2.stride := by
    rw [← hp.stride.1, ← hp.stride.2]
    exact hstrideA
  have hpairA := axisPair_of_plan hrows hrowsA hmatchA.rows hstrideA.1 haligned
  have hpairA' := axisPair_of_plan hcols hcolsA hmatchA.cols hstrideA.2 haligned'
  have hpairB := axisPair_of_plan hrows hrowsB hmatchB.rows hstrideB.1 haligned
  have hpairB' := axisPair_of_plan hcols hcolsB hmatchB.cols hstrideB.2 haligned'
  have hrootA : Root space red A A' := by
    apply root_of_matching hmatchA hsubA hpairA hpairA' _ _ hstrideA
    · rw [haxes₁, haxes₂]
      exact ⟨le_max_left _ _, le_max_left _ _⟩
    · rw [haxes₁, haxes₂]
      exact ⟨le_max_left _ _, le_max_left _ _⟩
  have hrootB : Root space red B B' := by
    apply root_of_matching hmatchB hsubB hpairB hpairB' _ _ hstrideB
    · rw [haxes₁, haxes₂]
      exact ⟨le_max_right _ _, le_max_right _ _⟩
    · rw [haxes₁, haxes₂]
      exact ⟨le_max_right _ _, le_max_right _ _⟩
  have hlensA := lens_apart hpairA.aligned hstep
  have hlensB := lens_apart hpairB.aligned hstep
  have hlensA' := lens_apart hpairA'.aligned hstep'
  have hlensB' := lens_apart hpairB'.aligned hstep'
  refine ⟨A', B', hA', hB', hrootA, hrootB, by omega, by omega, by omega, by omega, fun j hj => ?_⟩
  rcases (hp.leaves j).mp hj with hj | hj
  · exact (hmatchA.batch j hj).imp id .inr
  · exact .inr (hmatchB.batch j hj)

end Onnxsim.Certify.Completeness
