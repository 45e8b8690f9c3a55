import Onnxsim.Passes.PadWindows

namespace Onnxsim.Passes.PadFusion

open List Option Overflow.Arrays FusedPads Gathers PadWindows
open Pooling Windows
open Paddings (conv_eq conv_pad_eq explicitAxes_spec grid_lengths paddedShape_length read_mem_of_grid)
open Reduce.Axes (ofFn_congr)

variable {rank : Nat} {os sizes' : List Nat} {β : Type} {l : List (Cell (List Nat))} {countIncludePad : Bool}
    {axes : List Axis} {alike : List (Cell (List Nat)) → List (Cell (List Nat)) → Prop}

section

variable {places : List Nat} {values : List Int}

theorem mem_of_lookup {i : Nat} {v : Int} (h : (places.zip values).lookup i = some v) : v ∈ values := by
  obtain ⟨l₁, l₂, heq, -⟩ := lookup_eq_some_iff.mp h
  exact (of_mem_zip (heq ▸ mem_append_right _ mem_cons_self)).2

theorem spread_nonneg (h : ∀ v ∈ values, 0 ≤ v) : ∀ v ∈ spread rank places values, 0 ≤ v := by
  intro v hv
  obtain ⟨i, -, rfl⟩ := List.mem_map.mp hv
  cases hl : (places.zip values).lookup i with
  | none => exact Int.le_refl _
  | some v => exact h v (mem_of_lookup hl)

theorem length_spread (rank : Nat) (places : List Nat) (values : List Int) : (spread rank places values).length = rank := by
  rw [spread, length_map, length_range]

/-- The pads of all axes, of which none is negative. -/
structure Full (rank : Nat) (begins ends : List Int) : Prop where
  begins_length : begins.length = rank
  ends_length : ends.length = rank
  begins_nonneg : ∀ b ∈ begins, 0 ≤ b
  ends_nonneg : ∀ e ∈ ends, 0 ≤ e

theorem full_of_fullPads {axes : Option (List Int)} {pads begins ends : List Int}
    (h : fullPads rank axes pads = some (begins, ends)) (hnonneg : ∀ v ∈ pads, 0 ≤ v) : Full rank begins ends := by
  cases axes with
  | none =>
    unfold fullPads at h
    dsimp only at h
    split at h
    · next hlen =>
      cases h
      refine ⟨?_, ?_, fun v hv => hnonneg v (mem_of_mem_take hv), fun v hv => hnonneg v (mem_of_mem_drop hv)⟩
      · rw [length_take]
        omega
      · rw [List.length_drop]
        omega
    · cases h
  | some axes =>
    obtain ⟨places, -, h⟩ := bind_eq_some_iff.mp h
    split at h
    · cases h
      exact ⟨length_spread _ _ _, length_spread _ _ _, spread_nonneg fun v hv => hnonneg v (mem_of_mem_take hv),
        spread_nonneg fun v hv => hnonneg v (mem_of_mem_drop hv)⟩
    · cases h

theorem value_of_isRequired {α : Type} [Zero α] [DecidableEq α] {required : α} {fill : Fill α}
    (h : fill.isRequired required = true) : fill.value = some required := by
  cases fill with
  | attr v => exact congrArg some (of_decide_eq_true h)
  | input v =>
    cases v with
    | none => cases h
    | some v => exact congrArg some (of_decide_eq_true h)
  | absent => exact congrArg some (of_decide_eq_true h).symm

variable {α : Type} [Inhabited α] [Zero α] [DecidableEq α] {required : α} {p : PadNode α} {pads : List Int}

theorem run_eq (hpads : p.pads = some pads) (hmode : p.mode.getD .constant = .constant)
    (hfill : p.fill.isRequired required = true) (x : NDArray α) :
    p.run x = (fullPads x.shape.length p.axes pads).bind fun full => pad full.1 full.2 required x := by
  rw [PadNode.run, if_pos hmode, hpads, bind_some, value_of_isRequired hfill, bind_some]

omit [Zero α] [DecidableEq α] in
theorem pad_shape {begins ends : List Int} {v : α} {x y : NDArray α} (h : pad begins ends v x = some y) :
    y.shape = paddedShape begins ends x.shape := by
  unfold pad at h
  split at h
  · cases h
    rfl
  · cases h

end

section

variable {α : Type} [Inhabited α] {attrs : Attributes} {kernel outSizes sizes : List Nat}
  {reduce reduce' : List (Cell α) → α} {batch channels : Nat} {x y : NDArray α}

theorem pool_eq (hkernel : attrs.kernelShape = some kernel) (hy : y.shape = batch :: channels :: sizes) :
    pool attrs reduce y =
      (grid attrs kernel sizes).map fun g => poolWith kernel g.outSizes (cells g.axes sizes) reduce y := by
  rw [pool, hkernel, bind_some, hy]
  show (if (batch :: channels :: sizes).length = kernel.length + 2 then _ else _) = _
  by_cases hlen : sizes.length = kernel.length
  · rw [if_pos (by simp [hlen])]
    rfl
  · have hnone : grid attrs kernel sizes = none := by
      rw [grid]
      exact if_neg hlen
    rw [if_neg (by simpa using hlen), hnone]
    rfl

theorem shape_poolWith (f : List Nat → List Nat → Cell (List Nat)) (hx : x.shape = batch :: channels :: sizes) :
    (poolWith kernel outSizes f reduce x).shape = batch :: channels :: outSizes := by
  show x.shape.headD 0 :: x.shape.getD 1 0 :: outSizes = _
  rw [hx]
  rfl

theorem readAt_poolWith (f : List Nat → List Nat → Cell (List Nat)) (hx : x.shape = batch :: channels :: sizes)
    {n c : Nat} (hn : n < batch) (hc : c < channels) (hos : os ∈ indices outSizes) :
    readAt (poolWith kernel outSizes f reduce x) (n :: c :: os) =
      reduce (((indices kernel).map (f os)).map (Cell.map fun p => readAt x (n :: c :: p))) := by
  have hmem : n :: c :: os ∈ indices (x.shape.headD 0 :: x.shape.getD 1 0 :: outSizes) := by
    rw [hx]
    exact mem_indices_cons.mpr ⟨hn, mem_indices_cons.mpr ⟨hc, hos⟩⟩
  refine (readAt_ofFn _ hmem).trans ?_
  rw [List.map_map]
  rfl

theorem poolWith_congr {f f' : List Nat → List Nat → Cell (List Nat)} (hx : x.shape = batch :: channels :: sizes)
    (hy : y.shape = batch :: channels :: sizes') (h : ∀ n < batch, ∀ c < channels, ∀ os ∈ indices outSizes,
      reduce (((indices kernel).map (f os)).map (Cell.map fun p => readAt y (n :: c :: p))) =
        reduce' (((indices kernel).map (f' os)).map (Cell.map fun p => readAt x (n :: c :: p)))) :
    poolWith kernel outSizes f reduce y = poolWith kernel outSizes f' reduce' x := by
  have hshape : (poolWith kernel outSizes f reduce y).shape = batch :: channels :: outSizes := shape_poolWith f hy
  apply ext_readAt (hshape.trans (shape_poolWith f' hx).symm)
  intro idx hidx
  rw [hshape] at hidx
  obtain ⟨n, rest, rfl, hn, hrest⟩ := exists_of_mem_indices_cons hidx
  obtain ⟨c, os, rfl, hc, hos⟩ := exists_of_mem_indices_cons hrest
  rw [readAt_poolWith f hy hn hc hos, readAt_poolWith f' hx hn hc hos]
  exact h n hn c hc os hos

end

section

theorem covered_element (i : β) (l : List (Cell β)) : covered (.element i :: l) = i :: covered l := rfl

theorem covered_outside (l : List (Cell β)) : covered (.outside :: l) = covered l := rfl

variable {begins : List Int} {sizes : List Nat}

theorem foldr_traced {α : Type} {op : α → α → α} {e v : α} (hv : ∀ a, op v a = a) (f : List Nat → α)
    (l : List (Cell (List Nat))) :
    (covered (l.map (Cell.map fun q => ((unpad begins sizes q).map f).getD v))).foldr op e =
      (covered ((l.map (through begins sizes)).map (Cell.map f))).foldr op e := by
  induction l with
  | nil => rfl
  | cons c l ih =>
    cases c with
    | element q =>
      rw [map_cons, map_cons, map_cons, through_element, Cell.map, covered_element, foldr_cons, ih]
      cases unpad begins sizes q with
      | none => exact hv _
      | some p => rfl
    | padding => exact ih
    | outside => exact ih

theorem maxOf_traced (f : List Nat → WithBot ℚ) (l : List (Cell (List Nat))) :
    maxOf (l.map (Cell.map fun q => ((unpad begins sizes q).map f).getD ⊥)) =
      maxOf ((l.map (through begins sizes)).map (Cell.map f)) :=
  foldr_traced (fun _ => max_eq_right bot_le) f l

theorem inside_through (c : Cell (List Nat)) : inside (through begins sizes c) = inside c := by
  cases c with
  | element q =>
    rw [through_element]
    cases unpad begins sizes q <;> rfl
  | padding => rfl
  | outside => rfl

theorem covered_length (h : Cell.padding ∉ l) : (covered l).length = l.countP inside := by
  induction l with
  | nil => rfl
  | cons c l ih =>
    rw [mem_cons, not_or] at h
    cases c with
    | element q => rw [covered_element, length_cons, ih h.2, countP_cons_of_pos rfl]
    | padding => exact absurd rfl h.1
    | outside => rw [covered_outside, ih h.2, countP_cons_of_neg (by simp [inside])]

theorem averageOf_traced (h : countIncludePad = true ∨ Cell.padding ∉ l) (f : List Nat → ℚ) :
    averageOf countIncludePad (l.map (Cell.map fun q => ((unpad begins sizes q).map f).getD 0)) =
      averageOf true ((l.map (through begins sizes)).map (Cell.map f)) := by
  have hsum : (covered (l.map (Cell.map fun q => ((unpad begins sizes q).map f).getD 0))).sum =
      (covered ((l.map (through begins sizes)).map (Cell.map f))).sum := foldr_traced zero_add f l
  have hcount : (l.map (through begins sizes)).countP inside = l.countP inside := by
    rw [countP_map]
    apply countP_congr
    intro c _
    rw [Function.comp_apply, inside_through]
  have hdenominator : denominator countIncludePad l = denominator true (l.map (through begins sizes)) := by
    show denominator countIncludePad l = (l.map (through begins sizes)).countP inside
    rw [hcount]
    cases countIncludePad with
    | true => rfl
    | false =>
      obtain h | h := h
      · cases h
      · exact covered_length h
  rw [averageOf, averageOf, hsum, denominator_map, denominator_map, hdenominator]

theorem cell_ne_padding {a : Axis} (h : a.padBegin = 0 ∧ a.padEnd = 0) (n o j : Nat) : a.cell n o j ≠ .padding := by
  unfold Axis.cell
  rw [h.1, h.2]
  split
  · nofun
  · rw [if_neg (by omega)]
    nofun

theorem cells_ne_padding (h : ∀ a ∈ axes, a.padBegin = 0 ∧ a.padEnd = 0) (sizes os js : List Nat) :
    cells axes sizes os js ≠ .padding := by
  fun_induction cells axes sizes os js with
  | case1 a axes n sizes o os j js ih =>
    rw [forall_mem_cons] at h
    have hfirst := cell_ne_padding h.1 n o j
    have hrest := ih h.2
    generalize a.cell n o j = c at hfirst
    generalize cells axes sizes os js = cs at hrest
    cases c with
    | padding => exact absurd rfl hfirst
    | outside => nofun
    | element i =>
      cases cs with
      | padding => exact absurd rfl hrest
      | outside => nofun
      | element is => nofun
  | case2 => nofun

end

section

variable {l' : List (Cell (List Nat))}

theorem sameElements_iff : sameElements l l' ↔ ∀ f, maxOf (l.map (Cell.map f)) = maxOf (l'.map (Cell.map f)) := by
  constructor
  · exact fun h f => maxOf_congr h f
  · intro h p
    have hmax : ∀ l : List (Cell (List Nat)),
        maxOf (l.map (Cell.map fun q => if q = p then (0 : WithBot ℚ) else ⊥)) ≤ ⊥ ↔ p ∉ covered l := by
      intro l
      unfold maxOf
      rw [covered_map, foldr_max_le, List.forall_mem_map]
      constructor
      · intro hall hp
        have := hall p hp
        rw [if_pos rfl] at this
        exact absurd this (by simp)
      · intro hp q hq
        rw [if_neg (by rintro rfl; exact hp hq)]
    rw [← not_iff_not, ← hmax l, ← hmax l', h]

theorem sameWeights_iff :
    sameWeights l l' ↔ ∀ f, averageOf true (l.map (Cell.map f)) = averageOf true (l'.map (Cell.map f)) := by
  constructor
  · intro h f
    have hmem : ∀ p ∈ covered l, p ∈ (covered l ++ covered l').dedup :=
      fun p hp => mem_dedup.mpr (mem_append_left _ hp)
    have hmem' : ∀ p ∈ covered l', p ∈ (covered l ++ covered l').dedup :=
      fun p hp => mem_dedup.mpr (mem_append_right _ hp)
    rw [averageOf_eq (nodup_dedup _) hmem, averageOf_eq (nodup_dedup _) hmem']
    congr 1
    apply map_congr_left
    intro p _
    rw [h p]
  · intro h p
    have hone : ∀ l : List (Cell (List Nat)),
        averageOf true (l.map (Cell.map fun q => if q = p then (1 : ℚ) else 0)) = weight l p := by
      intro l
      have hmem : ∀ q ∈ covered l, q ∈ (p :: covered l).dedup :=
        fun q hq => mem_dedup.mpr (mem_cons_of_mem _ hq)
      have hp : p ∈ (p :: covered l).dedup := mem_dedup.mpr mem_cons_self
      rw [averageOf_eq (nodup_dedup _) hmem, sum_indicator (nodup_dedup _) hp, if_pos rfl, mul_one]
      intro q hq
      rw [if_neg hq, mul_zero]
    rw [← hone l, ← hone l', h]

end

section

variable {α : Type} [Inhabited α] [Zero α] [DecidableEq α] {required : α} {p : PadNode α} {pads begins ends : List Int}
  {attrs attrs' : Attributes} {kernel sizes : List Nat} {reduce reduce' : List (Cell α) → α} {g : Grid}

def Traces (attrs : Attributes) (required : α) (reduce reduce' : List (Cell α) → α) (kernel sizes : List Nat) : Prop :=
  ∀ begins ends g, grid attrs kernel (paddedShape begins ends sizes) = some g → ∀ os ∈ indices g.outSizes,
    ∀ f : List Nat → α,
      reduce (((indices kernel).map (cells g.axes (paddedShape begins ends sizes) os)).map
        (Cell.map fun q => ((unpad begins sizes q).map f).getD required)) =
      reduce' (((indices kernel).map fun js =>
        through begins sizes (cells g.axes (paddedShape begins ends sizes) os js)).map (Cell.map f))

theorem map_cells_congr {outSizes : List Nat} (hg : grid attrs kernel sizes' = some ⟨axes, outSizes⟩)
    (hos : os ∈ indices outSizes) {f f' : List Nat → β} (h : ∀ q ∈ indices sizes', f q = f' q) :
    ((indices kernel).map (cells axes sizes' os)).map (Cell.map f) =
      ((indices kernel).map (cells axes sizes' os)).map (Cell.map f') := by
  apply map_congr_left
  intro c hc
  obtain ⟨js, hjs, rfl⟩ := List.mem_map.mp hc
  cases hcell : cells axes sizes' os js with
  | element q =>
    have hq : q ∈ indices sizes' := read_mem_of_grid hg hos hjs (Cell.read_eq_some.mpr hcell)
    exact congrArg Cell.element (h q hq)
  | padding => rfl
  | outside => rfl

variable (hb : begins.length = sizes.length) (he : ends.length = sizes.length)
    (hgrid : grid attrs kernel (paddedShape begins ends sizes) = some g) (hos : os ∈ indices g.outSizes)

include hb he hgrid hos

theorem through_mem {js q : List Nat} (hjs : js ∈ indices kernel)
    (h : through begins sizes (cells g.axes (paddedShape begins ends sizes) os js) = .element q) : q ∈ indices sizes := by
  cases hcell : cells g.axes (paddedShape begins ends sizes) os js with
  | element q' =>
    have hq' := read_mem_of_grid hgrid hos hjs (Cell.read_eq_some.mpr hcell)
    rw [hcell, through_element] at h
    cases hun : unpad begins sizes q' with
    | none =>
      rw [hun] at h
      cases h
    | some p =>
      rw [hun] at h
      cases h
      exact unpad_mem hb ((length_of_mem_indices hq').trans (paddedShape_length hb he)) hun
  | padding =>
    rw [hcell] at h
    cases h
  | outside =>
    rw [hcell] at h
    cases h

theorem map_through_congr {f f' : List Nat → β} (h : ∀ q ∈ indices sizes, f q = f' q) :
    ((indices kernel).map fun js => through begins sizes (cells g.axes (paddedShape begins ends sizes) os js)).map (Cell.map f) =
      ((indices kernel).map fun js => through begins sizes (cells g.axes (paddedShape begins ends sizes) os js)).map
        (Cell.map f') := by
  apply map_congr_left
  intro c hc
  obtain ⟨js, hjs, rfl⟩ := List.mem_map.mp hc
  cases hcell : through begins sizes (cells g.axes (paddedShape begins ends sizes) os js) with
  | element q => exact congrArg Cell.element (h q (through_mem hb he hgrid hos hjs hcell))
  | padding => rfl
  | outside => rfl

omit hb he hgrid hos

omit [Zero α] [DecidableEq α] in
theorem pool_behind (hkernel : attrs.kernelShape = some kernel) {batch channels : Nat} {x : NDArray α}
    (hx : x.shape = batch :: channels :: sizes) (hb : begins.length = sizes.length) (he : ends.length = sizes.length)
    (hgrid : grid attrs kernel (paddedShape begins ends sizes) = some g)
    (htrace : Traces attrs required reduce reduce' kernel sizes) :
    ((pad (0 :: 0 :: begins) (0 :: 0 :: ends) required x).bind (pool attrs reduce)) =
      some (poolWith kernel g.outSizes
        (fun os js => through begins sizes (cells g.axes (paddedShape begins ends sizes) os js)) reduce' x) := by
  obtain ⟨y, hy, hshape, hread⟩ := pad_spatial hx hb he required
  rw [hy, bind_some, pool_eq hkernel hshape, hgrid, map_some]
  congr 1
  apply poolWith_congr hx hshape
  intro n hn c hc os hos
  rw [map_cells_congr hgrid hos (fun q hq => hread n hn c hc q hq)]
  exact htrace begins ends g hgrid os hos fun q => readAt x (n :: c :: q)

theorem full_split (h : Full (rank + 2) begins ends) :
    ∃ b₀ b₁ bs e₀ e₁ es, begins = b₀ :: b₁ :: bs ∧ ends = e₀ :: e₁ :: es ∧ bs.length = rank ∧ es.length = rank ∧
      0 ≤ b₀ ∧ 0 ≤ b₁ ∧ 0 ≤ e₀ ∧ 0 ≤ e₁ := by
  obtain ⟨b₀, bs, rfl⟩ := exists_cons_of_length_eq_add_one h.begins_length
  obtain ⟨e₀, es, rfl⟩ := exists_cons_of_length_eq_add_one h.ends_length
  obtain ⟨b₁, bs, rfl⟩ := exists_cons_of_length_eq_add_one (Nat.succ.inj h.begins_length)
  obtain ⟨e₁, es, rfl⟩ := exists_cons_of_length_eq_add_one (Nat.succ.inj h.ends_length)
  refine ⟨b₀, b₁, bs, e₀, e₁, es, rfl, rfl, ?_, ?_, ?_, ?_, ?_, ?_⟩
  · simpa using h.begins_length
  · simpa using h.ends_length
  · exact h.begins_nonneg b₀ (by simp)
  · exact h.begins_nonneg b₁ (by simp)
  · exact h.ends_nonneg e₀ (by simp)
  · exact h.ends_nonneg e₁ (by simp)

omit [Inhabited α] [Zero α] [DecidableEq α] in
theorem paddedShape_features {batch channels : Nat} {x : NDArray α} (hx : x.shape = batch :: channels :: sizes)
    (b₀ b₁ : Int) (bs : List Int) (e₀ e₁ : Int) (es : List Int) :
    paddedShape (b₀ :: b₁ :: bs) (e₀ :: e₁ :: es) x.shape =
      ((batch : Int) + b₀ + e₀).toNat :: ((channels : Int) + b₁ + e₁).toNat :: paddedShape bs es sizes := by
  rw [hx]
  rfl

theorem poolSame_iff (hpads : p.pads = some pads) (hmode : p.mode.getD .constant = .constant)
    (hfill : p.fill.isRequired required = true) (hnonneg : ∀ v ∈ pads, 0 ≤ v)
    (hkernel : attrs.kernelShape = some kernel) (hkernel' : attrs'.kernelShape = some kernel)
    (halike : ∀ l l', alike l l' ↔ ∀ f, reduce' (l.map (Cell.map f)) = reduce' (l'.map (Cell.map f)))
    (htrace : Traces attrs required reduce reduce' kernel sizes) :
    PoolSame p attrs attrs' reduce reduce' sizes ↔ ∀ begins ends g, fullPads (sizes.length + 2) p.axes pads = some (begins, ends) →
      grid attrs kernel (paddedShape (begins.drop 2) (ends.drop 2) sizes) = some g →
        WindowsAgree alike attrs' begins ends kernel sizes g := by
  constructor
  · intro h begins ends g hfull hgrid
    obtain ⟨b₀, b₁, bs, e₀, e₁, es, rfl, rfl, hb, he, hb₀, hb₁, he₀, he₁⟩ := full_split (full_of_fullPads hfull hnonneg)
    have hone : ∀ x : NDArray α, x.shape = 1 :: 1 :: sizes → ∃ y g', y.shape =
        ((1 : Nat) + b₀ + e₀).toNat :: ((1 : Nat) + b₁ + e₁).toNat :: paddedShape bs es sizes ∧
        pad (b₀ :: b₁ :: bs) (e₀ :: e₁ :: es) required x = some y ∧ grid attrs' kernel sizes = some g' ∧
          poolWith kernel g.outSizes (cells g.axes (paddedShape bs es sizes)) reduce y =
            poolWith kernel g'.outSizes (cells g'.axes sizes) reduce' x := by
      intro x hx
      have hlen : (b₀ :: b₁ :: bs).length = x.shape.length ∧ (e₀ :: e₁ :: es).length = x.shape.length := by
        rw [hx]
        simp [hb, he]
      obtain ⟨y, hy⟩ : ∃ y, pad (b₀ :: b₁ :: bs) (e₀ :: e₁ :: es) required x = some y := ⟨_, if_pos hlen⟩
      have hyshape := pad_shape hy
      rw [paddedShape_features hx] at hyshape
      have hpool : pool attrs reduce y = some (poolWith kernel g.outSizes (cells g.axes (paddedShape bs es sizes)) reduce y) := by
        rw [pool_eq hkernel hyshape]
        exact congrArg (Option.map _) hgrid
      have hrank : x.shape.length = sizes.length + 2 := by
        rw [hx]
        rfl
      have hnew := h 1 1 x _ hx (by rw [run_eq hpads hmode hfill, hrank, hfull, bind_some, hy, bind_some, hpool])
      rw [pool_eq hkernel' hx] at hnew
      obtain ⟨g', hg', heq⟩ := map_eq_some_iff.mp hnew
      exact ⟨y, g', hyshape, hy, hg', heq.symm⟩
    obtain ⟨y, g', hyshape, -, hg', heq⟩ := hone (NDArray.ofFn (1 :: 1 :: sizes) fun _ => default) rfl
    have hshapes := congrArg NDArray.shape heq
    have hshape' : ∀ x : NDArray α, x.shape = 1 :: 1 :: sizes →
        (poolWith kernel g'.outSizes (cells g'.axes sizes) reduce' x).shape = 1 :: 1 :: g'.outSizes :=
      fun x hx => shape_poolWith _ hx
    rw [shape_poolWith _ hyshape, hshape' _ rfl, List.cons.injEq, List.cons.injEq] at hshapes
    obtain ⟨hbatch, hchannels, hout⟩ := hshapes
    obtain ⟨rfl, rfl, rfl, rfl⟩ : b₀ = 0 ∧ b₁ = 0 ∧ e₀ = 0 ∧ e₁ = 0 := by omega
    refine ⟨rfl, rfl, g', hg', hout.symm, ?_⟩
    intro os hos
    rw [halike]
    intro f
    have hx : (NDArray.ofFn (1 :: 1 :: sizes) fun idx => f (idx.drop 2)).shape = 1 :: 1 :: sizes := rfl
    have hvalue : ∀ q ∈ indices sizes,
        readAt (NDArray.ofFn (1 :: 1 :: sizes) fun idx => f (idx.drop 2)) (0 :: 0 :: q) = f q := by
      intro q hq
      exact readAt_ofFn _ (mem_indices_cons.mpr ⟨Nat.one_pos, mem_indices_cons.mpr ⟨Nat.one_pos, hq⟩⟩)
    generalize (NDArray.ofFn (1 :: 1 :: sizes) fun idx => f (idx.drop 2)) = x at hx hvalue
    have hrank : x.shape.length = sizes.length + 2 := by
      rw [hx]
      rfl
    have hsame := h 1 1 x _ hx (by
      rw [run_eq hpads hmode hfill, hrank, hfull, bind_some]
      exact pool_behind hkernel hx hb he hgrid htrace)
    rw [pool_eq hkernel' hx, hg', map_some] at hsame
    have hvalues := congrArg (fun z => readAt z (0 :: 0 :: os)) (Option.some.inj hsame)
    have hos' : os ∈ indices g'.outSizes := hout ▸ hos
    simp only [readAt_poolWith _ hx Nat.one_pos Nat.one_pos hos, readAt_poolWith _ hx Nat.one_pos Nat.one_pos hos'] at hvalues
    have hleft := map_through_congr hb he hgrid hos hvalue
    have hright : ((indices kernel).map (cells g'.axes sizes os)).map (Cell.map fun q => readAt x (0 :: 0 :: q)) =
        ((indices kernel).map (cells g'.axes sizes os)).map (Cell.map f) := map_cells_congr hg' hos' hvalue
    rw [hleft, hright] at hvalues
    exact hvalues.symm
  · intro h batch channels x z hx hrun
    have hrank : x.shape.length = sizes.length + 2 := by
      rw [hx]
      rfl
    rw [run_eq hpads hmode hfill, hrank] at hrun
    obtain ⟨y, hy, hpool⟩ := bind_eq_some_iff.mp hrun
    obtain ⟨full, hfull, hpad⟩ := bind_eq_some_iff.mp hy
    obtain ⟨begins, ends⟩ := full
    obtain ⟨b₀, b₁, bs, e₀, e₁, es, rfl, rfl, hb, he, -⟩ := full_split (full_of_fullPads hfull hnonneg)
    have hyshape := pad_shape hpad
    rw [paddedShape_features hx] at hyshape
    rw [pool_eq hkernel hyshape] at hpool
    obtain ⟨g, hgrid, -⟩ := map_eq_some_iff.mp hpool
    obtain ⟨hbegins, hends, g', hg', hout, hagree⟩ := h _ _ g hfull hgrid
    obtain ⟨rfl, rfl⟩ : b₀ = 0 ∧ b₁ = 0 := by simpa using hbegins
    obtain ⟨rfl, rfl⟩ : e₀ = 0 ∧ e₁ = 0 := by simpa using hends
    rw [hfull, bind_some, pool_behind hkernel hx hb he hgrid htrace] at hrun
    rw [pool_eq hkernel' hx, hg', map_some, hout, ← hrun]
    congr 1
    apply poolWith_congr hx hx
    intro n _ c _ os hos
    exact ((halike _ _).mp (hagree os hos) _).symm

end

section

variable {α : Type} [Inhabited α] [Semiring α] [DecidableEq α] {p : PadNode α} {pads begins ends : List Int}
  {attrs attrs' : Attributes} {group : Nat} {kernel sizes : List Nat}

omit [DecidableEq α] in
theorem conv_eq_some {x w z : NDArray α} {bias : Option (NDArray α)} (h : conv attrs group x w bias = some z) :
    Operands group (x.shape.headD 0) (x.shape.drop 2) (w.shape.drop 2) x w ∧
      ∃ g, grid attrs (w.shape.drop 2) (x.shape.drop 2) = some g := by
  unfold conv at h
  split at h
  · next hops =>
    obtain ⟨g, hg, -⟩ := map_eq_some_iff.mp h
    exact ⟨hops, g, hg⟩
  · cases h

theorem read_through (begins : List Int) (sizes : List Nat) (c : Cell (List Nat)) :
    (through begins sizes c).read = c.read.bind (unpad begins sizes) := by
  cases c with
  | element q =>
    rw [through_element]
    show _ = unpad begins sizes q
    cases unpad begins sizes q <;> rfl
  | padding => rfl
  | outside => rfl

theorem sameTaps_map {js : List (List Nat)} {f f' : List Nat → Cell (List Nat)} :
    sameTaps (js.map f) (js.map f') ↔ ∀ j ∈ js, (f j).read = (f' j).read := by
  rw [sameTaps, List.map_map, List.map_map, map_inj_left]
  rfl

theorem features_of_convSame {b₀ b₁ e₀ e₁ : Int} {bs es : List Int} {g : Grid} (hpads : p.pads = some pads)
    (hmode : p.mode.getD .constant = .constant) (hfill : p.fill.isRequired 0 = true) (hgroup : 0 < group)
    (hb : bs.length = sizes.length) (he : es.length = sizes.length) (hb₀ : 0 ≤ b₀) (hb₁ : 0 ≤ b₁) (he₀ : 0 ≤ e₀)
    (he₁ : 0 ≤ e₁) (hfull : fullPads (sizes.length + 2) p.axes pads = some (b₀ :: b₁ :: bs, e₀ :: e₁ :: es))
    (hgrid : grid attrs kernel (paddedShape bs es sizes) = some g) (h : ConvSame p attrs attrs' group kernel sizes) :
    b₀ = 0 ∧ b₁ = 0 ∧ e₀ = 0 ∧ e₁ = 0 := by
  obtain ⟨extra, hextra⟩ : ∃ extra : Nat, (extra : Int) = b₁ + e₁ := ⟨(b₁ + e₁).toNat, Int.toNat_of_nonneg (by omega)⟩
  have hroom : extra + 1 ≤ group * (extra + 1) := Nat.le_mul_of_pos_left _ hgroup
  obtain ⟨channels, hchannels⟩ : ∃ channels, channels + extra = group * (extra + 1) :=
    ⟨group * (extra + 1) - extra, by omega⟩
  obtain ⟨x, hx⟩ : ∃ x : NDArray α, x.shape = 1 :: channels :: sizes := ⟨NDArray.ofFn _ fun _ => 0, rfl⟩
  obtain ⟨w, hw⟩ : ∃ w : NDArray α, w.shape = group :: (extra + 1) :: kernel := ⟨NDArray.ofFn _ fun _ => 0, rfl⟩
  have hlen : (b₀ :: b₁ :: bs).length = x.shape.length ∧ (e₀ :: e₁ :: es).length = x.shape.length := by
    rw [hx]
    simp [hb, he]
  obtain ⟨y, hy⟩ : ∃ y, pad (b₀ :: b₁ :: bs) (e₀ :: e₁ :: es) 0 x = some y := ⟨_, if_pos hlen⟩
  have hyshape := pad_shape hy
  rw [paddedShape_features hx] at hyshape
  have hin : w.shape.getD 1 0 = extra + 1 := by
    rw [hw]
    rfl
  have hout : w.shape.headD 0 = group := by
    rw [hw]
    rfl
  have hops : Operands group ((1 : Nat) + b₀ + e₀).toNat (paddedShape bs es sizes) kernel y w := by
    refine ⟨?_, ?_⟩
    · rw [hyshape, hin]
      congr 2
      omega
    · rw [hin, hout, Nat.div_self hgroup, Nat.mul_one, hw]
  have hrank : x.shape.length = sizes.length + 2 := by
    rw [hx]
    rfl
  have hnew := h 1 channels x w none _ hx (by rw [hw]; rfl) (by
    rw [run_eq hpads hmode hfill, hrank, hfull, bind_some, hy, bind_some]
    exact conv_eq none hops hgrid)
  obtain ⟨hops', g', hg'⟩ := conv_eq_some hnew
  have hxs := hops'.x_shape
  rw [hx, hin, List.cons.injEq, List.cons.injEq] at hxs
  have hhead := congrArg (fun z : NDArray α => z.shape.headD 0) (Option.some.inj ((conv_eq none hops' hg').symm.trans hnew))
  have hheads : x.shape.headD 0 = y.shape.headD 0 := hhead
  rw [hx, hyshape, headD_cons, headD_cons] at hheads
  omega

theorem convSame_iff [Nontrivial α] (hpads : p.pads = some pads) (hmode : p.mode.getD .constant = .constant)
    (hfill : p.fill.isRequired 0 = true) (hnonneg : ∀ v ∈ pads, 0 ≤ v) (hgroup : 0 < group) :
    ConvSame p attrs attrs' group kernel sizes ↔ ∀ begins ends g, fullPads (sizes.length + 2) p.axes pads = some (begins, ends) →
      grid attrs kernel (paddedShape (begins.drop 2) (ends.drop 2) sizes) = some g →
        WindowsAgree sameTaps attrs' begins ends kernel sizes g := by
  constructor
  · intro h begins ends g hfull hgrid
    obtain ⟨b₀, b₁, bs, e₀, e₁, es, rfl, rfl, hb, he, hb₀, hb₁, he₀, he₁⟩ := full_split (full_of_fullPads hfull hnonneg)
    obtain ⟨rfl, rfl, rfl, rfl⟩ := features_of_convSame hpads hmode hfill hgroup hb he hb₀ hb₁ he₀ he₁ hfull hgrid h
    have hnew : ∀ x w : NDArray α, Operands group 1 sizes kernel x w → conv attrs' group x w none =
        some (convWith group kernel g.outSizes (fun os js =>
          (cells g.axes (paddedShape bs es sizes) os js).read.bind (unpad bs sizes)) x w none) := by
      intro x w hx
      have hrank : x.shape.length = sizes.length + 2 := by
        rw [hx.x_shape]
        rfl
      refine h 1 _ x w none _ hx.x_shape (by rw [hx.w_shape]; rfl) ?_
      rw [run_eq hpads hmode hfill, hrank, hfull, bind_some, conv_pad_eq none hx hb he]
      exact congrArg (Option.map _) hgrid
    obtain ⟨-, g', hg'⟩ := conv_eq_some (hnew _ _ (operands_unit hgroup [] []))
    have hg'' : grid attrs' kernel sizes = some g' := hg'
    have hsame : ∀ x w : NDArray α, Operands group 1 sizes kernel x w →
        convWith group kernel g.outSizes (fun os js =>
          (cells g.axes (paddedShape bs es sizes) os js).read.bind (unpad bs sizes)) x w none =
        convWith group kernel g'.outSizes (fun os js => (cells g'.axes sizes os js).read) x w none := by
      intro x w hx
      have heq := hnew x w hx
      rw [conv_eq none hx hg''] at heq
      exact (Option.some.inj heq).symm
    have hsizes := outSizes_of_convWith hgroup hsame
    obtain ⟨-, htaps⟩ := convWith_inj hgroup (fun os hos js hjs q hq => by
        rw [← read_through, Cell.read_eq_some] at hq
        exact through_mem hb he hgrid hos hjs hq)
      (fun os hos js hjs q hq => read_mem_of_grid hg'' (hsizes ▸ hos) hjs hq) hsame
    refine ⟨rfl, rfl, g', hg'', hsizes.symm, ?_⟩
    intro os hos
    rw [sameTaps_map]
    intro js hjs
    rw [read_through]
    exact htaps os hos js hjs
  · intro h batch channels x w bias z hx hw hrun
    have hrank : x.shape.length = sizes.length + 2 := by
      rw [hx]
      rfl
    rw [run_eq hpads hmode hfill, hrank] at hrun
    obtain ⟨y, hy, hconv⟩ := bind_eq_some_iff.mp hrun
    obtain ⟨full, hfull, hpad⟩ := bind_eq_some_iff.mp hy
    obtain ⟨begins, ends⟩ := full
    obtain ⟨b₀, b₁, bs, e₀, e₁, es, rfl, rfl, hb, he, -⟩ := full_split (full_of_fullPads hfull hnonneg)
    have hyshape := pad_shape hpad
    rw [paddedShape_features hx] at hyshape
    obtain ⟨hops, g, hgrid⟩ := conv_eq_some hconv
    have hgrid' : grid attrs kernel (paddedShape bs es sizes) = some g := by
      rw [hyshape, hw] at hgrid
      exact hgrid
    obtain ⟨hbegins, hends, g', hg', hout, hagree⟩ := h _ _ g hfull hgrid'
    obtain ⟨rfl, rfl⟩ : b₀ = 0 ∧ b₁ = 0 := by simpa using hbegins
    obtain ⟨rfl, rfl⟩ : e₀ = 0 ∧ e₁ = 0 := by simpa using hends
    have hxw : Operands group batch sizes kernel x w := by
      have hy₁ := hops.x_shape
      rw [hyshape, List.cons.injEq, List.cons.injEq] at hy₁
      refine ⟨?_, ?_⟩
      · rw [hx]
        congr 2
        omega
      · rw [← hw]
        exact hops.w_shape
    rw [hfull, bind_some, conv_pad_eq bias hxw hb he, hgrid', map_some] at hrun
    rw [conv_eq bias hxw hg', ← hrun]
    congr 1
    apply convWith_congr bias hout
    intro os hos js hjs
    rw [hout] at hos
    have htaps := sameTaps_map.mp (hagree os hos) js hjs
    rw [read_through] at htaps
    exact htaps.symm

end

section

variable {attrs : Attributes} {kernel sizes : List Nat} {α : Type}

theorem agrees_iff (hrefl : ∀ l, alike l l) {p : PadNode α} {pads : List Int}
    (hmode : attrs.autoPad.getD .notset = .notset) (hnonneg : ∀ v ∈ pads, 0 ≤ v) (hfirst : pads.take 2 = [0, 0])
    (hlast : (pads.drop (pads.length / 2)).take 2 = [0, 0]) :
    (∀ begins ends g, fullPads (sizes.length + 2) p.axes pads = some (begins, ends) →
      grid attrs kernel (paddedShape (begins.drop 2) (ends.drop 2) sizes) = some g →
        WindowsAgree alike { attrs with pads := some (added pads (ownPads attrs pads)) } begins ends kernel sizes g) ↔
      Agrees alike p attrs pads kernel sizes := by
  unfold Agrees
  apply forall_congr'
  intro begins
  apply forall_congr'
  intro ends
  apply forall_congr'
  intro g
  apply imp_congr_right
  intro hfull
  apply imp_congr_right
  intro hgrid
  cases haxes : p.axes with
  | some axes => exact Iff.rfl
  | none =>
    rw [haxes] at hfull
    unfold fullPads at hfull
    dsimp only at hfull ⊢
    split at hfull
    · next hlen =>
      obtain ⟨rfl, rfl⟩ := Prod.mk.inj (Option.some.inj hfull)
      have hhalf : pads.length / 2 = sizes.length + 2 := by omega
      rw [hhalf] at hlast
      have hfirst' : (pads.take (sizes.length + 2)).take 2 = [0, 0] := by
        rw [take_take, Nat.min_eq_left (by omega), hfirst]
      exact windowsAgree_plain hrefl hmode hlen hnonneg hfirst' hlast hgrid
    · cases hfull

theorem grid_autoPad (hmode : attrs.autoPad.getD .notset = .notset) (own : Option (List Int)) (kernel sizes : List Nat) :
    grid { attrs with autoPad := none, pads := own } kernel sizes = grid { attrs with pads := own } kernel sizes := by
  unfold grid
  rw [hmode]
  rfl

theorem windowsAgree_autoPad {begins ends : List Int} {g : Grid} (hmode : attrs.autoPad.getD .notset = .notset)
    (own : Option (List Int)) :
    WindowsAgree alike { attrs with autoPad := none, pads := own } begins ends kernel sizes g ↔
      WindowsAgree alike { attrs with pads := own } begins ends kernel sizes g := by
  constructor
  · rintro ⟨hb, he, g', hg', h⟩
    rw [grid_autoPad hmode] at hg'
    exact ⟨hb, he, g', hg', h⟩
  · rintro ⟨hb, he, g', hg', h⟩
    rw [← grid_autoPad hmode] at hg'
    exact ⟨hb, he, g', hg', h⟩

variable {readers : Readers} {node : PoolNode}

theorem nested_of_uses (h : ¬ 1 < readers.uses) : readers.nested = 0 := by
  unfold Readers.uses at h
  omega

/-- When the part that the passes share is right, for an operator that is the same when its windows agree. -/
theorem sound_shared_iff [Zero α] [DecidableEq α] {required : α} {p : PadNode α} {same : Attributes → Prop}
    {blocked : Bool} {attrs₀ : Attributes} (hrefl : ∀ l, alike l l) (hnested : readers.nested = 0)
    (hblocked : blocked = false ↔ attrs.autoPad.getD .notset = .notset) (hpads₀ : attrs₀.pads = attrs.pads)
    (hsame : ∀ pads, p.pads = some pads → p.mode.getD .constant = .constant → p.fill.isRequired required = true →
      (∀ v ∈ pads, 0 ≤ v) → attrs.autoPad.getD .notset = .notset → ∀ own,
        (same { attrs₀ with pads := some own } ↔ ∀ begins ends g, fullPads (sizes.length + 2) p.axes pads = some (begins, ends) →
          grid attrs kernel (paddedShape (begins.drop 2) (ends.drop 2) sizes) = some g →
            WindowsAgree alike { attrs with pads := some own } begins ends kernel sizes g)) :
    Sound readers sizes.length same (fold required blocked p attrs₀) ↔ FoldsRight required alike p attrs kernel sizes := by
  rw [sound_fold_iff required blocked p attrs₀ hnested]
  unfold FoldsRight
  apply forall_congr'
  intro pads
  apply imp_congr_right
  intro hpads
  apply imp_congr_right
  intro hmode
  apply imp_congr_right
  intro hfill
  apply and_congr_right
  intro _
  rw [hblocked]
  apply imp_congr_right
  intro hauto
  apply imp_congr_right
  intro _
  apply imp_congr_right
  intro hnonneg
  apply imp_congr_right
  intro hfirst
  apply imp_congr_right
  intro hlast
  have hown : ownPads attrs₀ pads = ownPads attrs pads := by
    rw [ownPads, hpads₀]
    rfl
  rw [hown, hsame pads hpads hmode hfill hnonneg hauto, agrees_iff hrefl hauto hnonneg hfirst hlast]

theorem sameTaps_refl (l : List (Cell (List Nat))) : sameTaps l l := rfl

theorem sameElements_refl (l : List (Cell (List Nat))) : sameElements l l := fun _ => Iff.rfl

theorem sameWeights_refl (l : List (Cell (List Nat))) : sameWeights l l := fun _ => rfl

theorem fusePadIntoConv_sound_iff [Inhabited α] [Semiring α] [Nontrivial α] [DecidableEq α] {group : Nat}
    (hgroup : 0 < group) (p : PadNode α) (readers : Readers) (attrs : Attributes) (kernel sizes : List Nat) :
    Sound readers sizes.length (fun attrs' => ConvSame p attrs attrs' group kernel sizes) (fusePadIntoConv p readers attrs) ↔
      (readers.uses ≤ 1 → FoldsRight 0 sameTaps p attrs kernel sizes) := by
  unfold fusePadIntoConv
  by_cases huses : 1 < readers.uses
  · rw [if_pos huses]
    exact ⟨fun _ h => absurd h (by omega), fun _ => sound_of_quiet (Or.inl rfl)⟩
  · have hfold : Sound readers sizes.length (fun attrs' => ConvSame p attrs attrs' group kernel sizes)
        (fold 0 (attrs.autoPad.getD .notset ≠ .notset) p { attrs with autoPad := none }) ↔
          FoldsRight 0 sameTaps p attrs kernel sizes := by
      apply sound_shared_iff sameTaps_refl (nested_of_uses huses)
      · simp
      · rfl
      · intro pads hpads hmode hfill hnonneg hauto own
        rw [convSame_iff hpads hmode hfill hnonneg hgroup]
        simp only [windowsAgree_autoPad hauto (some own)]
    rw [if_neg huses, hfold]
    exact ⟨fun h _ => h, fun h => h (by omega)⟩

theorem map_through (begins : List Int) (sizes : List Nat) (js : List (List Nat)) (f : List Nat → Cell (List Nat)) :
    (js.map f).map (through begins sizes) = js.map fun j => through begins sizes (f j) := List.map_map

theorem traces_maxOf (attrs : Attributes) (kernel sizes : List Nat) : Traces attrs ⊥ maxOf maxOf kernel sizes := by
  intro begins ends g _ os _ f
  rw [maxOf_traced, map_through]

theorem traces_averageOf (hmode : attrs.autoPad.getD .notset = .notset)
    (h : (∃ v ∈ attrs.pads.getD [], v ≠ 0) → countIncludePad = true) (kernel sizes : List Nat) :
    Traces attrs 0 (averageOf countIncludePad) (averageOf true) kernel sizes := by
  intro begins ends g hgrid os _ f
  have hwindow : countIncludePad = true ∨
      Cell.padding ∉ (indices kernel).map (cells g.axes (paddedShape begins ends sizes) os) := by
    by_cases hown : ∃ v ∈ attrs.pads.getD [], v ≠ 0
    · exact Or.inl (h hown)
    · right
      have hzero : ∀ v ∈ attrs.pads.getD (List.replicate (2 * kernel.length) 0), v = 0 := by
        intro v hv
        cases hpads : attrs.pads with
        | none =>
          rw [hpads] at hv
          exact eq_of_mem_replicate hv
        | some own =>
          rw [hpads] at hv hown
          by_contra hne
          exact hown ⟨v, hv, hne⟩
      obtain ⟨-, haxes, -⟩ := grid_parts hmode hgrid
      have hpads := explicitAxes_pads (P := (· = 0)) haxes (fun v hv => hzero v (mem_of_mem_take hv))
        (fun v hv => hzero v (mem_of_mem_drop hv))
      intro hmem
      obtain ⟨js, -, hcell⟩ := List.mem_map.mp hmem
      exact cells_ne_padding hpads _ _ _ hcell
  rw [averageOf_traced hwindow, map_through]

theorem fusePadIntoMaxPool_sound_iff (p : PadNode (WithBot ℚ)) (readers : Readers)
    (hkernel : node.attrs.kernelShape = some kernel) (sizes : List Nat) :
    Sound readers sizes.length (fun attrs' => PoolSame p node.attrs attrs' maxOf maxOf sizes)
      (fusePadIntoMaxPool p readers node) ↔
        (readers.uses ≤ 1 → node.attrs.autoPad.getD .notset = .notset → node.indicesUsed = false →
          FoldsRight ⊥ sameElements p node.attrs kernel sizes) := by
  unfold fusePadIntoMaxPool
  by_cases hguard : 1 < readers.uses ∨ node.attrs.autoPad.getD .notset ≠ .notset ∨ node.indicesUsed = true
  · rw [if_pos hguard]
    refine ⟨fun _ huses hauto hindices => ?_, fun _ => sound_of_quiet (Or.inl rfl)⟩
    obtain hguard | hguard | hguard := hguard
    · omega
    · exact absurd hauto hguard
    · rw [hindices] at hguard
      cases hguard
  · rw [if_neg hguard]
    push Not at hguard
    obtain ⟨huses, hauto, hindices⟩ := hguard
    rw [ne_eq, Bool.not_eq_true] at hindices
    have hfold : Sound readers sizes.length (fun attrs' => PoolSame p node.attrs attrs' maxOf maxOf sizes)
        (fold ⊥ false p node.attrs) ↔ FoldsRight ⊥ sameElements p node.attrs kernel sizes := by
      apply sound_shared_iff sameElements_refl (nested_of_uses (by omega))
      · exact ⟨fun _ => hauto, fun _ => rfl⟩
      · rfl
      · intro pads hpads hmode hfill hnonneg _ own
        exact poolSame_iff hpads hmode hfill hnonneg hkernel hkernel (fun _ _ => sameElements_iff) (traces_maxOf _ _ _)
    rw [hfold]
    exact ⟨fun h _ _ _ => h, fun h => h huses hauto hindices⟩

theorem fusePadIntoAveragePool_sound_iff (p : PadNode ℚ) (readers : Readers)
    (hkernel : node.attrs.kernelShape = some kernel) (sizes : List Nat) :
    Sound readers sizes.length
      (fun attrs' => PoolSame p node.attrs attrs' (averageOf (node.countIncludePad.getD 0 = 1)) (averageOf true) sizes)
      (fusePadIntoAveragePool p readers node) ↔
        (readers.uses ≤ 1 → node.attrs.autoPad.getD .notset = .notset →
          ((∃ v ∈ node.attrs.pads.getD [], v ≠ 0) → node.countIncludePad.getD 0 = 1) →
            FoldsRight 0 sameWeights p node.attrs kernel sizes) := by
  unfold fusePadIntoAveragePool
  by_cases hguard : 1 < readers.uses ∨ node.attrs.autoPad.getD .notset ≠ .notset ∨
      ((∃ v ∈ node.attrs.pads.getD [], v ≠ 0) ∧ node.countIncludePad.getD 0 ≠ 1)
  · rw [if_pos hguard]
    refine ⟨fun _ huses hauto hcount => ?_, fun _ => sound_of_quiet (Or.inl rfl)⟩
    obtain hguard | hguard | hguard := hguard
    · omega
    · exact absurd hauto hguard
    · exact absurd (hcount hguard.1) hguard.2
  · rw [if_neg hguard]
    push Not at hguard
    obtain ⟨huses, hauto, hcount⟩ := hguard
    have hfold : Sound readers sizes.length
        (fun attrs' => PoolSame p node.attrs attrs' (averageOf (node.countIncludePad.getD 0 = 1)) (averageOf true) sizes)
        (fold 0 false p node.attrs) ↔ FoldsRight 0 sameWeights p node.attrs kernel sizes := by
      apply sound_shared_iff sameWeights_refl (nested_of_uses (by omega))
      · exact ⟨fun _ => hauto, fun _ => rfl⟩
      · rfl
      · intro pads hpads hmode hfill hnonneg _ own
        exact poolSame_iff hpads hmode hfill hnonneg hkernel hkernel (fun _ _ => sameWeights_iff)
          (traces_averageOf hauto (fun h => decide_eq_true (hcount h)) _ _)
    rw [hfold]
    exact ⟨fun h _ _ _ => h, fun h => h huses hauto hcount⟩

/-- The passes fuse a Pad that has no axes right unless a window starts in its padding, and one that has axes when its
windows happen to agree; the Pad's list has to have four places. -/
theorem fused_pads_sound_iff {α : Type} [Inhabited α] [Semiring α] [Nontrivial α] [DecidableEq α] {group : Nat}
    (hgroup : 0 < group) (p : PadNode α) (readers : Readers) (attrs : Attributes) (kernel sizes : List Nat)
    (maxPad : PadNode (WithBot ℚ)) (maxReaders : Readers) {maxNode : PoolNode} {maxKernel : List Nat}
    (hmax : maxNode.attrs.kernelShape = some maxKernel) (maxSizes : List Nat) (averagePad : PadNode ℚ)
    (averageReaders : Readers) {averageNode : PoolNode} {averageKernel : List Nat}
    (haverage : averageNode.attrs.kernelShape = some averageKernel) (averageSizes : List Nat) :
    (Sound readers sizes.length (fun attrs' => ConvSame p attrs attrs' group kernel sizes) (fusePadIntoConv p readers attrs) ↔
      (readers.uses ≤ 1 → FoldsRight 0 sameTaps p attrs kernel sizes)) ∧
    (Sound maxReaders maxSizes.length (fun attrs' => PoolSame maxPad maxNode.attrs attrs' maxOf maxOf maxSizes)
      (fusePadIntoMaxPool maxPad maxReaders maxNode) ↔
        (maxReaders.uses ≤ 1 → maxNode.attrs.autoPad.getD .notset = .notset → maxNode.indicesUsed = false →
          FoldsRight ⊥ sameElements maxPad maxNode.attrs maxKernel maxSizes)) ∧
    (Sound averageReaders averageSizes.length (fun attrs' => PoolSame averagePad averageNode.attrs attrs'
      (averageOf (averageNode.countIncludePad.getD 0 = 1)) (averageOf true) averageSizes)
      (fusePadIntoAveragePool averagePad averageReaders averageNode) ↔
        (averageReaders.uses ≤ 1 → averageNode.attrs.autoPad.getD .notset = .notset →
          ((∃ v ∈ averageNode.attrs.pads.getD [], v ≠ 0) → averageNode.countIncludePad.getD 0 = 1) →
            FoldsRight 0 sameWeights averagePad averageNode.attrs averageKernel averageSizes)) :=
  ⟨fusePadIntoConv_sound_iff hgroup p readers attrs kernel sizes, fusePadIntoMaxPool_sound_iff maxPad maxReaders hmax maxSizes,
    fusePadIntoAveragePool_sound_iff averagePad averageReaders haverage averageSizes⟩

end

def soleReader : Readers := ⟨0, 0⟩

def plainConv : Attributes := ⟨none, none, none, none, none, false⟩

def pooling (stride : Nat) (ceil : Bool) : PoolNode := ⟨⟨none, some [1], none, some [stride], none, ceil⟩, none, false⟩

def constantPad {α : Type} (pads : List Int) (fill : Fill α) (axes : Option (List Int)) : PadNode α :=
  ⟨some pads, none, fill, axes⟩

def narrowPad : PadNode Int := constantPad [0, 0] .absent (some [2])

def permutedPad : PadNode Int := constantPad [0, 0, 1, 0, 0, 0, 0, 0] .absent (some [0, 1, 3, 2])

def lowestPad : PadNode (WithBot ℚ) := constantPad [0, 0, 0, 0, 0, 1] (.attr ⊥) none

def zeroPad {α : Type} : PadNode α := constantPad [0, 0, 1, 0, 0, 1] .absent none

/-- A Pad of one listed axis by nothing, one whose axes are permuted, and one before a pool that rounds up. -/
theorem fused_pads_go_wrong :
    ¬ Sound soleReader 1 (fun attrs' => ConvSame narrowPad plainConv attrs' 1 [1] [1])
      (fusePadIntoConv narrowPad soleReader plainConv) ∧
    ¬ Sound soleReader 2 (fun attrs' => ConvSame permutedPad plainConv attrs' 1 [1, 1] [1, 1])
      (fusePadIntoConv permutedPad soleReader plainConv) ∧
    ¬ Sound soleReader 1 (fun attrs' => PoolSame lowestPad (pooling 2 true).attrs attrs' maxOf maxOf [2])
      (fusePadIntoMaxPool lowestPad soleReader (pooling 2 true)) := by
  refine ⟨?_, ?_, ?_⟩
  · intro h
    exact h.inRange (by decide)
  · intro h
    have hfolds := (fusePadIntoConv_sound_iff Nat.one_pos permutedPad soleReader plainConv [1, 1] [1, 1]).mp h (by decide)
    have hagrees := ((hfolds _ rfl rfl rfl).2 rfl (by decide) (by decide) (by decide) (by decide)).2
    have hgrid : grid plainConv [1, 1] [1, 2] = some ⟨[⟨1, 1, 1, 0, 0⟩, ⟨1, 1, 1, 0, 0⟩], [1, 2]⟩ := by decide
    have hfull : fullPads 4 (some [0, 1, 3, 2]) [0, 0, 1, 0, 0, 0, 0, 0] = some ([0, 0, 0, 1], [0, 0, 0, 0]) := by decide
    have hwindows : WindowsAgree _ _ _ _ _ _ _ := hagrees _ _ _ hfull hgrid
    obtain ⟨g', hg', hout, -⟩ := hwindows.agree
    have hsizes : (grid { plainConv with pads := some [1, 0, 0, 0] } [1, 1] [1, 1]).map Grid.outSizes = some g'.outSizes :=
      congrArg (Option.map Grid.outSizes) hg'
    rw [hout] at hsizes
    revert hsizes
    decide
  · intro h
    have hkernel : (pooling 2 true).attrs.kernelShape = some [1] := rfl
    have hfolds := (fusePadIntoMaxPool_sound_iff lowestPad soleReader hkernel [2]).mp h (by decide) rfl rfl
    have hfill : lowestPad.fill.isRequired ⊥ = true := by simp [lowestPad, constantPad, Fill.isRequired]
    have hagrees := ((hfolds _ rfl rfl hfill).2 rfl (by decide) (by decide) (by decide) (by decide)).2
    have hgrid : grid (pooling 2 true).attrs [1] [3] = some ⟨[⟨1, 2, 1, 0, 0⟩], [2]⟩ := by decide
    have hplain : _ ∨ _ := hagrees _ _ _ rfl hgrid
    obtain hceil | hstart := hplain
    · cases hceil
    · have hone : StartsOutside ⟨1, 2, 1, 0, 0⟩ 0 1 2 := hstart.1
      revert hone
      decide

theorem fused_pads_instance :
    (Sound soleReader 1 (fun attrs' => ConvSame (zeroPad : PadNode Int) plainConv attrs' 1 [1] [1])
      (fusePadIntoConv (zeroPad : PadNode Int) soleReader plainConv) ↔
        (soleReader.uses ≤ 1 → FoldsRight 0 sameTaps (zeroPad : PadNode Int) plainConv [1] [1])) ∧
    (Sound soleReader 1 (fun attrs' => PoolSame lowestPad (pooling 2 true).attrs attrs' maxOf maxOf [2])
      (fusePadIntoMaxPool lowestPad soleReader (pooling 2 true)) ↔
        (soleReader.uses ≤ 1 → (pooling 2 true).attrs.autoPad.getD .notset = .notset → (pooling 2 true).indicesUsed = false →
          FoldsRight ⊥ sameElements lowestPad (pooling 2 true).attrs [1] [2])) ∧
    (Sound soleReader 1 (fun attrs' => PoolSame zeroPad (pooling 1 false).attrs attrs'
      (averageOf ((pooling 1 false).countIncludePad.getD 0 = 1)) (averageOf true) [2])
      (fusePadIntoAveragePool zeroPad soleReader (pooling 1 false)) ↔
        (soleReader.uses ≤ 1 → (pooling 1 false).attrs.autoPad.getD .notset = .notset →
          ((∃ v ∈ (pooling 1 false).attrs.pads.getD [], v ≠ 0) → (pooling 1 false).countIncludePad.getD 0 = 1) →
            FoldsRight 0 sameWeights zeroPad (pooling 1 false).attrs [1] [2])) :=
  fused_pads_sound_iff Nat.one_pos zeroPad soleReader plainConv [1] [1] lowestPad soleReader rfl [2] zeroPad soleReader rfl [2]

end Onnxsim.Passes.PadFusion
