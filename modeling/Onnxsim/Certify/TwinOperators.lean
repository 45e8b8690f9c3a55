import Onnxsim.Certify.Twins

namespace Onnxsim.Certify.TwinGrids

open List Lib.Expressions Lib.Results Overflow.Arrays Windows
  Shrinking Patches

variable {n m : Nat} {px : Pixel}

section

variable {𝕜 : Type}

/-- The sizes of the leaves: their batches and channels, and their spatial size at both extents. -/
structure Leafs where
  batch : Nat → Nat
  channels : Nat → Nat
  full : Nat × Nat
  reduced : Nat × Nat

variable (e : Leafs)

/-- The pixel of batch `b` that lies `dy` rows and `dx` columns further. -/
def move (b : Nat) (dy dx : Int) (px : Pixel) : Pixel :=
  ⟨px.leaf, pick (e.batch px.leaf) b, px.channel, (px.row + dy).toNat, (px.col + dx).toNat⟩

/-- A pixel of the patch of output position `(y, x)`, at the reduced extent. -/
structure InPatch (ls : List Nat) (g : Axis × Axis) (y x : Int) (px : Pixel) : Prop where
  leaf : px.leaf ∈ ls
  batch : px.batch = 0
  channel : px.channel < e.channels px.leaf
  row : (px.row : Int) < e.reduced.1 ∧ y * g.1.stride - g.1.lead ≤ px.row ∧ (px.row : Int) < y * g.1.stride + g.1.tail
  col : (px.col : Int) < e.reduced.2 ∧ x * g.2.stride - g.2.lead ≤ px.col ∧ (px.col : Int) < x * g.2.stride + g.2.tail

/-- A tensor over the leaves `ls` at the full extent, and at the reduced one. -/
structure Matching (ls : List Nat) (g : Axis × Axis) (G G' : Grid 𝕜) : Prop where
  batch : ∀ j ∈ ls, e.batch j = G.batch ∨ e.batch j = 1
  leaf : ∃ j ∈ ls, e.batch j = G.batch
  batch' : G'.batch = 1
  channels : G'.channels = G.channels
  rows : Aligned g.1 e.full.1 e.reduced.1 G.rows G'.rows
  cols : Aligned g.2 e.full.2 e.reduced.2 G.cols G'.cols
  same : ∀ b c y y' x x' dy dx, c < G.channels → y < G.rows → y' < G'.rows → x < G.cols → x' < G'.cols →
    Twin g.1 e.full.1 e.reduced.1 y y' dy → Twin g.2 e.full.2 e.reduced.2 x x' dx →
    G.at_ (pick G.batch b) c y x = (G'.at_ 0 c y' x').rename (move e b dy dx)
  patch : ∀ c y x, c < G.channels → y < G'.rows → x < G'.cols →
    (G'.at_ 0 c y x).All (InPatch e ls g y x)

variable {e} {ls : List Nat} {g h : Axis × Axis} {G G' : Grid 𝕜} {b c y x : Nat}

theorem pick_of_lt {i : Nat} (h : i < n) : pick n i = i := by
  rw [pick]
  split
  · omega
  · rfl

theorem pick_one (i : Nat) : pick 1 i = 0 := if_pos rfl

theorem pick_lt {i : Nat} (hm : m = n ∨ m = 1) (hi : i < n) : pick m i < m := by
  rw [pick]
  split <;> omega

theorem inPatch_of_le {g h : Axis × Axis} {y x y' x' : Int} (hp : InPatch e ls g y x px)
    (hy : y' * h.1.stride - h.1.lead ≤ y * g.1.stride - g.1.lead ∧ y * g.1.stride + g.1.tail ≤ y' * h.1.stride + h.1.tail)
    (hx : x' * h.2.stride - h.2.lead ≤ x * g.2.stride - g.2.lead ∧ x * g.2.stride + g.2.tail ≤ x' * h.2.stride + h.2.tail) :
    InPatch e ls h y' x' px :=
  ⟨hp.leaf, hp.batch, hp.channel, ⟨hp.row.1, hy.1.trans hp.row.2.1, hp.row.2.2.trans_le hy.2⟩,
    ⟨hp.col.1, hx.1.trans hp.col.2.1, hp.col.2.2.trans_le hx.2⟩⟩

theorem leaf_twin (i : Nat) :
    Matching e [i] (unitAxis, unitAxis)
      ⟨e.batch i, e.channels i, e.full.1, e.full.2, fun b k y x => .var ⟨i, b, k, y, x⟩⟩
      (⟨1, e.channels i, e.reduced.1, e.reduced.2, fun b k y x => .var ⟨i, b, k, y, x⟩⟩ : Grid 𝕜) := by
  refine ⟨?_, ⟨i, mem_singleton_self i, rfl⟩, rfl, rfl, aligned_unit _ _, aligned_unit _ _, ?_, ?_⟩
  · intro j hj
    exact .inl (by rw [mem_singleton.mp hj])
  · intro b c y y' x x' dy dx _ _ _ _ _ hy hx
    have hdy := hy.shift
    have hdx := hx.shift
    simp only [unitAxis, mul_one] at hdy hdx
    have hrow : ((y' : Int) + dy).toNat = y := by omega
    have hcol : ((x' : Int) + dx).toNat = x := by omega
    simp only [Expr.rename, move, hrow, hcol]
  · intro c y x hc hy hx
    refine ⟨mem_singleton_self i, rfl, hc, ?_, ?_⟩
    · simp only [unitAxis]
      dsimp only at hy
      omega
    · simp only [unitAxis]
      dsimp only at hx
      omega

/-- An operation on terms that does not depend on the names of the pixels. -/
structure Natural (f : Term 𝕜 → Term 𝕜) : Prop where
  rename : ∀ (r : Pixel → Pixel) a, (f a).rename r = f (a.rename r)
  all : ∀ (R : Pixel → Prop) a, a.All R → (f a).All R

theorem map_twin {f : Term 𝕜 → Term 𝕜} (hf : Natural f) (ht : Matching e ls g G G') :
    Matching e ls g (mapGrid f G) (mapGrid f G') := by
  refine ⟨ht.batch, ht.leaf, ht.batch', ht.channels, ht.rows, ht.cols, ?_, ?_⟩
  · intro b c y y' x x' dy dx hc hy hy' hx hx' hty htx
    have hsame := ht.same b c y y' x x' dy dx hc hy hy' hx hx' hty htx
    rw [mapGrid, mapGrid, hf.rename, ← hsame]
  · exact fun c y x hc hy hx => hf.all _ _ (ht.patch c y x hc hy hx)

theorem natural_neg : Natural (.neg : Term 𝕜 → Term 𝕜) := ⟨fun _ _ => rfl, fun _ _ h => h⟩

theorem natural_id : Natural (id : Term 𝕜 → Term 𝕜) := ⟨fun _ _ => rfl, fun _ _ h => h⟩

theorem natural_relu [Field 𝕜] : Natural (relu : Term 𝕜 → Term 𝕜) :=
  ⟨fun _ _ => rfl, fun _ _ h => ⟨trivial, h, h, trivial⟩⟩

theorem natural_clip [Field 𝕜] (lo hi : Option 𝕜) : Natural (clip lo hi : Term 𝕜 → Term 𝕜) := by
  constructor
  · intro r a
    cases lo <;> cases hi <;> rfl
  · intro R a ha
    cases lo <;> cases hi
    · exact ha
    · exact ⟨trivial, ha, trivial, ha⟩
    · exact ⟨ha, trivial, trivial, ha⟩
    · exact ⟨trivial, ⟨ha, trivial, trivial, ha⟩, trivial, ⟨ha, trivial, trivial, ha⟩⟩

structure Natural₂ (f : Term 𝕜 → Term 𝕜 → Term 𝕜) : Prop where
  rename : ∀ (r : Pixel → Pixel) a b, (f a b).rename r = f (a.rename r) (b.rename r)
  all : ∀ (R : Pixel → Prop) a b, a.All R → b.All R → (f a b).All R

theorem natural_add : Natural₂ (.add : Term 𝕜 → Term 𝕜 → Term 𝕜) := ⟨fun _ _ _ => rfl, fun _ _ _ ha hb => ⟨ha, hb⟩⟩

theorem natural_sub : Natural₂ (.sub : Term 𝕜 → Term 𝕜 → Term 𝕜) := ⟨fun _ _ _ => rfl, fun _ _ _ ha hb => ⟨ha, hb⟩⟩

theorem natural_mul : Natural₂ (.mul : Term 𝕜 → Term 𝕜 → Term 𝕜) := ⟨fun _ _ _ => rfl, fun _ _ _ ha hb => ⟨ha, hb⟩⟩

theorem natural_flip {f : Term 𝕜 → Term 𝕜 → Term 𝕜} (hf : Natural₂ f) : Natural₂ fun a b => f b a :=
  ⟨fun r a b => hf.rename r b a, fun R a b ha hb => hf.all R b a hb ha⟩

end

variable {𝕜 : Type} {e : Leafs} {ls ls' : List Nat} {g h : Axis × Axis} {G G' X X' K Z : Grid 𝕜}
  {f : Term 𝕜 → Term 𝕜 → Term 𝕜} {k c y x b : Nat}

theorem bcastDim_eq_ok (h : bcastDim m n = .ok k) : (m = k ∨ m = 1) ∧ (n = k ∨ n = 1) := by
  rw [bcastDim] at h
  split at h
  · next hmn =>
    cases h
    exact ⟨.inl rfl, hmn.imp Eq.symm id⟩
  · split at h
    · next hm =>
      cases h
      exact ⟨.inr hm, .inl rfl⟩
    · cases h

theorem bcastDim_either (h : bcastDim m n = .ok k) : m = k ∨ n = k := by
  rw [bcastDim] at h
  split at h
  · cases h
    exact .inl rfl
  · split at h
    · cases h
      exact .inr rfl
    · cases h

theorem bcastDim_one (m : Nat) : bcastDim m 1 = .ok m := by rw [bcastDim, if_pos (.inr rfl)]

theorem bcastDim_self (m : Nat) : bcastDim m m = .ok m := by rw [bcastDim, if_pos (.inl rfl)]

theorem bcastDim_comm (m n : Nat) : bcastDim m n = bcastDim n m := by
  simp only [bcastDim]
  split_ifs <;> first | rfl | (congr 1; omega)

theorem zipGrids_flip : zipGrids f X G = zipGrids (fun a b => f b a) G X := by
  simp only [zipGrids, bcastDim_comm X.batch, bcastDim_comm X.channels, bcastDim_comm X.rows, bcastDim_comm X.cols]

theorem zipGrids_eq_ok (h : zipGrids f G X = .ok Z) :
    bcastDim G.batch X.batch = .ok Z.batch ∧ bcastDim G.channels X.channels = .ok Z.channels ∧
      bcastDim G.rows X.rows = .ok Z.rows ∧ bcastDim G.cols X.cols = .ok Z.cols ∧
      ∀ b k i j, Z.at_ b k i j = f (G.read b k i j) (X.read b k i j) := by
  obtain ⟨n, hn, h⟩ := bind_eq_ok h
  obtain ⟨c, hc, h⟩ := bind_eq_ok h
  obtain ⟨y, hy, h⟩ := bind_eq_ok h
  obtain ⟨x, hx, h⟩ := bind_eq_ok h
  cases h
  exact ⟨hn, hc, hy, hx, fun _ _ _ _ => rfl⟩

theorem zipGrids_ok (hn : bcastDim G.batch X.batch = .ok n) (hc : bcastDim G.channels X.channels = .ok c)
    (hy : bcastDim G.rows X.rows = .ok y) (hx : bcastDim G.cols X.cols = .ok x) :
    zipGrids f G X = .ok ⟨n, c, y, x, fun b k i j => f (G.read b k i j) (X.read b k i j)⟩ := by
  rw [zipGrids, ok_bind hn, ok_bind hc, ok_bind hy, ok_bind hx]

/-- A constant that does not vary over batch and space. -/
structure Flat (K : Grid 𝕜) : Prop where
  batch : K.batch = 1
  rows : K.rows = 1
  cols : K.cols = 1
  num : ∀ c, ∃ v, K.at_ 0 c 0 0 = .num v

theorem flat_read (hK : Flat K) (b c y x : Nat) : K.read b c y x = K.at_ 0 (pick K.channels c) 0 0 := by
  rw [Grid.read, hK.batch, hK.rows, hK.cols, pick_one, pick_one, pick_one]

theorem read_of_lt (hn : G.batch = n ∨ G.batch = 1) (hy : y < G.rows) (hx : x < G.cols) :
    G.read (pick n b) c y x = G.at_ (pick G.batch b) (pick G.channels c) y x := by
  have hbatch : pick G.batch (pick n b) = pick G.batch b := by
    rcases hn with hn | hn
    · rw [hn, pick, pick]
      split <;> rfl
    · rw [hn, pick_one, pick_one]
  rw [Grid.read, hbatch, pick_of_lt hy, pick_of_lt hx]

theorem read_reduced (ht : Matching e ls g G G') (hy : y < G'.rows) (hx : x < G'.cols) :
    G'.read 0 c y x = G'.at_ 0 (pick G.channels c) y x := by
  have h := read_of_lt (b := 0) (c := c) (n := 1) (.inl ht.batch') hy hx
  rw [pick_one, ht.batch', pick_one, ht.channels] at h
  exact h

theorem zip_flat (hf : Natural₂ f) (ht : Matching e ls g G G') (hK : Flat K) (hz : zipGrids f G K = .ok Z) :
    ∃ Z', zipGrids f G' K = .ok Z' ∧ Matching e ls g Z Z' ∧ Z.rows = G.rows ∧ Z.cols = G.cols ∧ Z'.rows = G'.rows ∧
      Z'.cols = G'.cols := by
  obtain ⟨hn, hc, hy, hx, hat⟩ := zipGrids_eq_ok hz
  rw [hK.batch, bcastDim_one, Except.ok.injEq] at hn
  rw [hK.rows, bcastDim_one, Except.ok.injEq] at hy
  rw [hK.cols, bcastDim_one, Except.ok.injEq] at hx
  have hred := zipGrids_ok (f := f) (G := G') (X := K) (by rw [hK.batch, bcastDim_one, ht.batch'])
    (by rw [ht.channels]; exact hc) (by rw [hK.rows, bcastDim_one]) (by rw [hK.cols, bcastDim_one])
  have hchannels := (bcastDim_eq_ok hc).1
  refine ⟨_, hred, ⟨?_, ?_, rfl, rfl, ?_, ?_, ?_, ?_⟩, hy.symm, hx.symm, rfl, rfl⟩
  · rw [← hn]
    exact ht.batch
  · rw [← hn]
    exact ht.leaf
  · rw [← hy]
    exact ht.rows
  · rw [← hx]
    exact ht.cols
  · intro b c y y' x x' dy dx hcz hyz hy' hxz hx' hty htx
    rw [← hy] at hyz
    rw [← hx] at hxz
    have hpick := pick_lt hchannels hcz
    rw [hat, hf.rename, flat_read hK, flat_read hK, read_of_lt (.inl hn) hyz hxz,
      ht.same b _ y y' x x' dy dx hpick hyz hy' hxz hx' hty htx]
    obtain ⟨v, hv⟩ := hK.num (pick K.channels c)
    rw [read_reduced ht hy' hx', hv, Expr.rename]
  · intro c y x hcz hyz hxz
    have hpick := pick_lt hchannels hcz
    obtain ⟨v, hv⟩ := hK.num (pick K.channels c)
    apply hf.all
    · rw [read_reduced ht hyz hxz]
      exact ht.patch _ y x hpick hyz hxz
    · rw [flat_read hK, hv]
      trivial

theorem inPatch_join {y x : Int} (hp : InPatch e ls g y x px) (hsub : ls ⊆ ls') {h : Axis × Axis}
    (hlead : g.1.lead ≤ h.1.lead ∧ g.2.lead ≤ h.2.lead) (htail : g.1.tail ≤ h.1.tail ∧ g.2.tail ≤ h.2.tail)
    (hstride : g.1.stride = h.1.stride ∧ g.2.stride = h.2.stride) : InPatch e ls' h y x px := by
  apply inPatch_of_le ⟨hsub hp.leaf, hp.batch, hp.channel, hp.row, hp.col⟩
  · rw [hstride.1]
    omega
  · rw [hstride.2]
    omega

theorem batch_join {j : Nat} (hj : j = b ∨ j = 1) (hb : b = n ∨ b = 1) : j = n ∨ j = 1 := by
  omega

theorem zip_both (hf : Natural₂ f) (ht : Matching e ls g G G') (hs : Matching e ls' h X X')
    (hstride : g.1.stride = h.1.stride ∧ g.2.stride = h.2.stride) (hrows : G.rows = X.rows ∧ G'.rows = X'.rows)
    (hcols : G.cols = X.cols ∧ G'.cols = X'.cols) (hz : zipGrids f G X = .ok Z) :
    ∃ Z', zipGrids f G' X' = .ok Z' ∧ Matching e (ls ++ ls') (join g.1 h.1, join g.2 h.2) Z Z' ∧ Z.rows = G.rows ∧ Z.cols = G.cols ∧
      Z'.rows = G'.rows ∧ Z'.cols = G'.cols := by
  obtain ⟨hn, hc, hy, hx, hat⟩ := zipGrids_eq_ok hz
  rw [hrows.1, bcastDim_self, Except.ok.injEq] at hy
  rw [hcols.1, bcastDim_self, Except.ok.injEq] at hx
  have hred := zipGrids_ok (f := f) (G := G') (X := X') (by rw [ht.batch', hs.batch', bcastDim_self])
    (by rw [ht.channels, hs.channels]; exact hc) (by rw [hrows.2, bcastDim_self]) (by rw [hcols.2, bcastDim_self])
  have hchannels := bcastDim_eq_ok hc
  have hbatch := bcastDim_eq_ok hn
  refine ⟨_, hred, ⟨?_, ?_, rfl, rfl, ?_, ?_, ?_, ?_⟩, ?_, ?_, hrows.2.symm, hcols.2.symm⟩
  · intro j hj
    rcases mem_append.mp hj with hj | hj
    · exact batch_join (ht.batch j hj) hbatch.1
    · exact batch_join (hs.batch j hj) hbatch.2
  · obtain ⟨j, hj, hjb⟩ := ht.leaf
    obtain ⟨k, hk, hkb⟩ := hs.leaf
    rcases bcastDim_either hn with hz | hz
    · exact ⟨j, mem_append_left _ hj, hjb.trans hz⟩
    · exact ⟨k, mem_append_right _ hk, hkb.trans hz⟩
  · rw [← hy, ← hrows.2, ← hrows.1]
    exact join_aligned ht.rows
  · rw [← hx, ← hcols.2, ← hcols.1]
    exact join_aligned ht.cols
  · intro b c y y' x x' dy dx hcz hyz hy' hxz hx' hty htx
    rw [← hy] at hyz
    rw [← hx] at hxz
    have hleft := ht.same b _ y y' x x' dy dx (pick_lt hchannels.1 hcz) (hrows.1 ▸ hyz) (hrows.2 ▸ hy') (hcols.1 ▸ hxz)
      (hcols.2 ▸ hx') (twin_left hty) (twin_left htx)
    have hright := hs.same b _ y y' x x' dy dx (pick_lt hchannels.2 hcz) hyz hy' hxz hx' (twin_right hty hstride.1)
      (twin_right htx hstride.2)
    rw [hat, hf.rename, read_reduced ht (hrows.2 ▸ hy') (hcols.2 ▸ hx'), read_reduced hs hy' hx',
      read_of_lt hbatch.1 (hrows.1 ▸ hyz) (hcols.1 ▸ hxz), read_of_lt hbatch.2 hyz hxz, hleft, hright]
  · intro c y x hcz hyz hxz
    apply hf.all
    · rw [read_reduced ht (hrows.2 ▸ hyz) (hcols.2 ▸ hxz)]
      apply (ht.patch _ y x (pick_lt hchannels.1 hcz) (hrows.2 ▸ hyz) (hcols.2 ▸ hxz)).mono
      exact fun px hp => inPatch_join hp (subset_append_left _ _) ⟨le_max_left _ _, le_max_left _ _⟩ ⟨le_max_left _ _, le_max_left _ _⟩
        ⟨rfl, rfl⟩
    · rw [read_reduced hs hyz hxz]
      apply (hs.patch _ y x (pick_lt hchannels.2 hcz) hyz hxz).mono
      exact fun px hp => inPatch_join hp (subset_append_right _ _) ⟨le_max_right _ _, le_max_right _ _⟩ ⟨le_max_right _ _, le_max_right _ _⟩
        ⟨hstride.1.symm, hstride.2.symm⟩
  · rw [← hy, hrows.1]
  · rw [← hx, hcols.1]

end Onnxsim.Certify.TwinGrids

namespace Onnxsim.Certify.TwinOperators

open List Lib.Expressions Lib.Results Overflow.Arrays Windows
  Shrinking Patches TwinGrids

variable {𝕜 : Type} [Field 𝕜] {e : Leafs} {ls : List Nat} {g : Axis × Axis} {G G' Z : Grid 𝕜}

theorem flat_constGrid {v : NDArray 𝕜} (hv : uniformConst v.shape = true) : ∃ K, constGrid v = .ok K ∧ Flat K := by
  rw [uniformConst] at hv
  split at hv
  · next n c h w hshape =>
    rw [Bool.and_eq_true, Bool.and_eq_true, decide_eq_true_iff, decide_eq_true_iff, decide_eq_true_iff] at hv
    obtain ⟨⟨hn, hh⟩, hw⟩ := hv
    rw [constGrid, hshape]
    exact ⟨_, rfl, hn, hh, hw, fun c => ⟨_, rfl⟩⟩
  · cases hv

theorem flat_channelGrid (values : List 𝕜) : Flat (channelGrid values) := ⟨rfl, rfl, rfl, fun _ => ⟨_, rfl⟩⟩

variable {attrs : Attrs 𝕜} {b c : Nat}

theorem batchNorm_twin {sqrt : 𝕜 → 𝕜} {scale bias mean var : List 𝕜} (ht : Matching e ls g G G')
    (hz : batchNormGrid sqrt attrs scale bias mean var G = .ok Z) :
    ∃ Z', batchNormGrid sqrt attrs scale bias mean var G' = .ok Z' ∧ Matching e ls g Z Z' ∧ Z.rows = G.rows ∧
      Z.cols = G.cols ∧ Z'.rows = G'.rows ∧ Z'.cols = G'.cols := by
  rw [batchNormGrid] at hz
  split at hz
  · cases hz
  next htraining =>
  split at hz
  · cases hz
  next hextra =>
  split at hz
  · cases hz
  next hlength =>
  obtain ⟨X, hX, hz₁⟩ := bind_eq_ok hz
  obtain ⟨Y, hY, hz₂⟩ := bind_eq_ok hz₁
  obtain ⟨X', hX', htX, hXrows, hXcols, hXrows', hXcols'⟩ := zip_flat natural_sub ht (flat_channelGrid mean) hX
  obtain ⟨Y', hY', htY, hYrows, hYcols, hYrows', hYcols'⟩ := zip_flat natural_mul htX (flat_channelGrid _) hY
  obtain ⟨Z', hZ', htZ, hZrows, hZcols, hZrows', hZcols'⟩ := zip_flat natural_add htY (flat_channelGrid bias) hz₂
  refine ⟨Z', ?_, htZ, hZrows.trans (hYrows.trans hXrows), hZcols.trans (hYcols.trans hXcols),
    hZrows'.trans (hYrows'.trans hXrows'), hZcols'.trans (hYcols'.trans hXcols')⟩
  rw [batchNormGrid, if_neg htraining, if_neg hextra, if_neg hlength, ok_bind hX', ok_bind hY']
  exact hZ'

variable {h v : ConvAxis}

theorem tap_twin (ht : Matching e ls g G G') (hdvd : g.1.stride ∣ (e.full.1 : Int) - e.reduced.1)
    (hdvd' : g.2.stride ∣ (e.full.2 : Int) - e.reduced.2) (hc : c < G.channels) {y y' x x' dy dx : Int}
    (hy : Twin g.1 e.full.1 e.reduced.1 y y' dy) (hx : Twin g.2 e.full.2 e.reduced.2 x x' dx) :
    tap G (pick G.batch b) c y x = (tap G' 0 c y' x').rename (move e b dy dx) := by
  have hrows := twin_inside ht.rows hdvd hy
  have hcols := twin_inside ht.cols hdvd' hx
  rw [tap, tap]
  by_cases hin : 0 ≤ y ∧ y < G.rows ∧ 0 ≤ x ∧ x < G.cols
  · have hin' : 0 ≤ y' ∧ y' < G'.rows ∧ 0 ≤ x' ∧ x' < G'.cols := by
      have hyin := hrows.mp ⟨hin.1, hin.2.1⟩
      have hxin := hcols.mp ⟨hin.2.2.1, hin.2.2.2⟩
      exact ⟨hyin.1, hyin.2, hxin.1, hxin.2⟩
    rw [if_pos hin, if_pos hin']
    apply ht.same b c _ _ _ _ dy dx hc
    · omega
    · omega
    · omega
    · omega
    · rw [Int.toNat_of_nonneg hin.1, Int.toNat_of_nonneg hin'.1]
      exact hy
    · rw [Int.toNat_of_nonneg hin.2.2.1, Int.toNat_of_nonneg hin'.2.2.1]
      exact hx
  · have hout : ¬ (0 ≤ y' ∧ y' < G'.rows ∧ 0 ≤ x' ∧ x' < G'.cols) := by
      intro hin'
      have hyin := hrows.mpr ⟨hin'.1, hin'.2.1⟩
      have hxin := hcols.mpr ⟨hin'.2.2.1, hin'.2.2.2⟩
      exact hin ⟨hyin.1, hyin.2, hxin.1, hxin.2⟩
    rw [if_neg hin, if_neg hout, Expr.rename]

theorem tap_patch (ht : Matching e ls g G G') (hc : c < G.channels) (y x : Int) :
    (tap G' 0 c y x).All (InPatch e ls g y x) := by
  rw [tap]
  split
  · next hin =>
    have hpatch := ht.patch c y.toNat x.toNat hc (by omega) (by omega)
    rw [Int.toNat_of_nonneg hin.1, Int.toNat_of_nonneg hin.2.2.1] at hpatch
    exact hpatch
  · trivial

variable {weight : NDArray 𝕜} {mo cg mg i j : Nat} {t : Term 𝕜} {bias : Option (NDArray 𝕜)}

theorem map_convTerms {b' i' j' : Nat} (r : Pixel → Pixel)
    (htap : ∀ cc < cg, ∀ ki < h.kernel, ∀ kj < v.kernel, tap G b (mo / mg * cg + cc) (h.place i ki) (v.place j kj) =
      (tap G' b' (mo / mg * cg + cc) (h.place i' ki) (v.place j' kj)).rename r) :
    convTerms weight h v G cg mg b mo i j = (convTerms weight h v G' cg mg b' mo i' j').map (Expr.rename r) := by
  rw [convTerms, convTerms, map_flatMap]
  apply flatMap_congr
  intro cc hcc
  rw [map_flatMap]
  apply flatMap_congr
  intro ki hki
  rw [List.map_map]
  apply map_congr_left
  intro kj hkj
  rw [Function.comp_apply, Expr.rename, Expr.rename,
    htap cc (mem_range.mp hcc) ki (mem_range.mp hki) kj (mem_range.mp hkj)]

theorem mem_convTerms (ht : t ∈ convTerms weight h v G cg mg b mo i j) :
    ∃ cc < cg, ∃ ki < h.kernel, ∃ kj < v.kernel, ∃ u,
      t = .mul (.num u) (tap G b (mo / mg * cg + cc) (h.place i ki) (v.place j kj)) := by
  obtain ⟨cc, hcc, ht⟩ := mem_flatMap.mp ht
  obtain ⟨ki, hki, ht⟩ := mem_flatMap.mp ht
  obtain ⟨kj, hkj, rfl⟩ := List.mem_map.mp ht
  exact ⟨cc, mem_range.mp hcc, ki, mem_range.mp hki, kj, mem_range.mp hkj, _, rfl⟩

theorem withBias_rename (bias : Option (NDArray 𝕜)) (mo : Nat) (t : Term 𝕜) (r : Pixel → Pixel) :
    (withBias bias mo t).rename r = withBias bias mo (t.rename r) := by
  cases bias <;> rfl

theorem withBias_all {R : Pixel → Prop} (ht : t.All R) : (withBias bias mo t).All R := by
  cases bias with
  | none => exact ht
  | some v => exact ⟨ht, trivial⟩

theorem convGrid_eq_ok (hh : convAxis attrs weight.shape 0 = .ok h) (hv : convAxis attrs weight.shape 1 = .ok v)
    (hz : convGrid attrs weight bias G = .ok Z) :
    ∃ m cg k k', weight.shape = [m, cg, k, k'] ∧
      (∀ mo < m, ∀ cc < cg, mo / (m / attrs.group) * cg + cc < G.channels) ∧ 0 ≤ h.len G.rows ∧ 0 ≤ v.len G.cols ∧
      Z = ⟨G.batch, m, (h.len G.rows).toNat, (v.len G.cols).toNat, fun b mo i j =>
        withBias bias mo (.sum (convTerms weight h v G cg (m / attrs.group) b mo i j))⟩ ∧
      ∀ X : Grid 𝕜, X.channels = G.channels → 0 ≤ h.len X.rows → 0 ≤ v.len X.cols → convGrid attrs weight bias X =
        .ok ⟨X.batch, m, (h.len X.rows).toNat, (v.len X.cols).toNat, fun b mo i j =>
          withBias bias mo (.sum (convTerms weight h v X cg (m / attrs.group) b mo i j))⟩ := by
  rw [convGrid] at hz
  split at hz
  · next m cg k k' hshape =>
    rw [ok_bind hh, ok_bind hv] at hz
    dsimp only at hz
    split at hz
    · cases hz
    next hpad =>
    split at hz
    · cases hz
    next hgroup =>
    split at hz
    · cases hz
    next hpads =>
    split at hz
    · cases hz
    next hlens =>
    split at hz
    · cases hz
    next hindex =>
    split at hz
    · cases hz
    next hbias =>
    cases hz
    rw [not_not] at hindex
    rw [not_or, not_lt, not_lt] at hlens
    refine ⟨m, cg, k, k', hshape, hindex, hlens.1, hlens.2, rfl, fun X hX hrows hcols => ?_⟩
    rw [hshape] at hh hv
    rw [convGrid, hshape]
    dsimp only
    rw [ok_bind hh, ok_bind hv, if_neg hpad, if_neg hgroup, if_neg hpads, if_neg (by omega), hX,
      if_neg (not_not.mpr hindex), if_neg hbias]
  · cases hz

theorem conv_twin (ht : Matching e ls g G G') (hh : convAxis attrs weight.shape 0 = .ok h)
    (hv : convAxis attrs weight.shape 1 = .ok v) (hhp : Plannable h) (hvp : Plannable v)
    (hdvd : (convPatch h g.1).stride ∣ (e.full.1 : Int) - e.reduced.1)
    (hdvd' : (convPatch v g.2).stride ∣ (e.full.2 : Int) - e.reduced.2) (hrows : 0 ≤ h.len G'.rows)
    (hcols : 0 ≤ v.len G'.cols) (hz : convGrid attrs weight bias G = .ok Z) :
    ∃ Z', convGrid attrs weight bias G' = .ok Z' ∧ Matching e ls (convPatch h g.1, convPatch v g.2) Z Z' ∧
      (Z.rows : Int) = h.len G.rows ∧ (Z.cols : Int) = v.len G.cols ∧ (Z'.rows : Int) = h.len G'.rows ∧
      (Z'.cols : Int) = v.len G'.cols := by
  obtain ⟨m, cg, k, k', hshape, hindex, hGrows, hGcols, rfl, hred⟩ := convGrid_eq_ok hh hv hz
  have hgdvd : g.1.stride ∣ (e.full.1 : Int) - e.reduced.1 := (Dvd.intro _ rfl).trans hdvd
  have hgdvd' : g.2.stride ∣ (e.full.2 : Int) - e.reduced.2 := (Dvd.intro _ rfl).trans hdvd'
  refine ⟨_, hred G' ht.channels hrows hcols, ⟨ht.batch, ht.leaf, ht.batch', rfl, ?_, ?_, ?_, ?_⟩, Int.toNat_of_nonneg hGrows,
    Int.toNat_of_nonneg hGcols, Int.toNat_of_nonneg hrows, Int.toNat_of_nonneg hcols⟩
  · dsimp only
    rw [Int.toNat_of_nonneg hGrows, Int.toNat_of_nonneg hrows]
    exact conv_aligned hhp ht.rows
  · dsimp only
    rw [Int.toNat_of_nonneg hGcols, Int.toNat_of_nonneg hcols]
    exact conv_aligned hvp ht.cols
  · intro b mo y y' x x' dy dx hmo _ _ _ _ hty htx
    dsimp only
    rw [withBias_rename, Expr.rename_sum]
    congr 2
    apply map_convTerms
    intro cc hcc ki hki kj hkj
    apply tap_twin ht hgdvd hgdvd' (hindex mo hmo cc hcc)
    · exact place_twin ht.rows.stride hki hty
    · exact place_twin ht.cols.stride hkj htx
  · intro mo y x hmo _ _
    apply withBias_all
    apply Expr.all_sum
    intro t htm
    obtain ⟨cc, hcc, ki, hki, kj, hkj, u, rfl⟩ := mem_convTerms htm
    refine ⟨trivial, ?_⟩
    apply (tap_patch ht (hindex mo hmo cc hcc) _ _).mono
    intro px hp
    exact inPatch_of_le hp (tap_bounds ht.rows.stride hki y) (tap_bounds ht.cols.stride hkj x)

end Onnxsim.Certify.TwinOperators
