import Mathlib.Order.Interval.Finset.Nat
import Onnxsim.BlockQuant.Halves
import Onnxsim.Pruning.Weights

namespace Onnxsim.Pruning.Magnitude

open List Weights Lib.Ties
open BlockQuant.Doubles (Double ofExact)

section

def fabs (d : Nat) : Nat := d % 2 ^ 63

/-- `x < y` for doubles that are not negative: the order of their patterns, unless one is not a number. -/
def less (x y : Nat) : Bool := x ≤ infinity && y ≤ infinity && x < y

/-- The columns in the order of `std::stable_sort`. -/
def order (row : Nat → Nat) (len : Nat) : List Nat := (range len).mergeSort fun a b => !less (row b) (row a)

/-- The places of the first `drop` of the `len` entries from `start`, when they are sorted. -/
def lowest (importance : List Nat) (start len drop : Nat) : List Nat :=
  ((order (fun c => importance.getD (start + c) 0) len).take drop).map (start + ·)

def maskOf (size : Nat) (places : List Nat) : List Bool := places.foldl (fun mask i => mask.set i false) (replicate size true)

def sparsityMaskRowMajor (importance : List Nat) (rows cols keep : Nat) : List Bool :=
  if cols ≤ keep then replicate importance.length true
  else maskOf importance.length ((range rows).flatMap fun r => lowest importance (r * cols) cols (cols - keep))

def nmMaskRowMajor (importance : List Nat) (rows cols n m : Nat) (tailKeep : Nat → Nat) : List Bool :=
  let fullCols := cols / m * m
  let tail := cols - fullCols
  maskOf importance.length <| (range rows).flatMap fun r =>
    ((range (cols / m)).flatMap fun g => lowest importance (r * cols + g * m) m (m - n)) ++
      if 0 < tail then lowest importance (r * cols + fullCols) tail (tail - tailKeep tail) else []

/-- `static_cast<int64_t>(std::nearbyint(x))` of a number -/
def nearbyint : Double → Int
  | .fin q => halfEven q
  | _ => 0

/-- What the entry point sets, once it has checked the N:M pattern. -/
structure Settings where
  sparsity : Double
  pattern : Option {p : Nat × Nat // 0 < p.1 ∧ p.1 ≤ p.2}

variable (s : Settings)

/-- The part of `size` entries that a sparsity leaves, as the code rounds it. -/
def Settings.rest (size : Nat) : Int := nearbyint ((ofExact size).mul ((Double.fin 1).sub s.sparsity))

def rowKeep (cols : Nat) : Nat := (max 1 (s.rest cols)).toNat

def tailKeep (n m tail : Nat) : Nat :=
  (min (tail : Int) (max 1 (nearbyint (((ofExact n).mul (ofExact tail)).div (ofExact m))))).toNat

def magnitudePruningMaskRowMajor (data : List Nat) (rows cols : Nat) : List Bool :=
  match s.pattern with
  | some p => nmMaskRowMajor (data.map fabs) rows cols p.1.1 p.1.2 (tailKeep p.1.1 p.1.2)
  | none => sparsityMaskRowMajor (data.map fabs) rows cols (rowKeep s cols)

def magnitudePruningWouldChange (data : List Nat) (rows cols : Nat) : Bool :=
  let mask := magnitudePruningMaskRowMajor s data rows cols
  (range data.length).any fun i => !mask.getD i true && fabs (data.getD i 0) != 0

def applyMaskRowMajor (data : List Nat) (mask : List Bool) : List Nat :=
  (range data.length).map fun i => if mask.getD i true then data.getD i 0 else 0

theorem length_applyMask (w : Weight) (mask : List Bool) : (applyMaskRowMajor w.data mask).length = w.size := by
  rw [applyMaskRowMajor, length_map, length_range, w.length_data]

def written (w : Weight) (mask : List Bool) : Weight where
  kind := w.kind
  tensor := writeF64FlatAsTensor w.tensor.elemType w.tensor.sizes (w.toOriginal (applyMaskRowMajor w.data mask))
  ranked := type_write.2 ▸ w.ranked
  held := held_write (w.length_toOriginal (length_applyMask w mask))

def layerMask (w : Weight) : List Bool := magnitudePruningMaskRowMajor s w.data w.rows w.cols

def prune (w : Weight) : Weight := written w (layerMask s w)

def patternMatchPredicate (w : Weight) : Bool := magnitudePruningWouldChange s w.data w.rows w.cols

/-- A node: the weight that one of the matchers finds, if any does, and the bodies. -/
inductive Node where
  | mk (weight : Option Weight) (bodies : List (List Node))

mutual

def collectBodies : Node → List (List Node)
  | .mk _ bodies => collectAll bodies

def collectAll : List (List Node) → List (List Node)
  | [] => []
  | g :: gs => g :: (collectNodes g ++ collectAll gs)

def collectNodes : List Node → List (List Node)
  | [] => []
  | n :: ns => collectBodies n ++ collectNodes ns

end

def collectGraphs (g : List Node) : List (List Node) := g :: collectNodes g

def entries (g : List Node) : List Weight :=
  (collectGraphs g).flatMap fun nodes => nodes.filterMap fun | .mk weight _ => weight

def pooled (es : List Weight) : List Nat := es.flatMap fun w => w.data.map fabs

def keepCount (total : Nat) : Nat := (max 0 (min (s.rest total) total)).toNat

/-- What `drop_flat` spares. -/
def globalMask (es : List Weight) : List Bool :=
  let total := (pooled es).length
  maskOf total (lowest (pooled es) 0 total (total - keepCount s total))

def writeEntries : List Weight → List Bool → List Weight
  | [], _ => []
  | w :: ws, mask => written w mask :: writeEntries ws (mask.drop w.size)

/-- The weights that the entries of the graphs have after the pass. -/
def magnitudePruningGlobal (g : List Node) : List Weight := writeEntries (entries g) (globalMask s (entries g))

/-- Consecutive entries of which so many are kept. -/
structure Group where
  start : Nat
  len : Nat
  keep : Nat
  keep_le : keep ≤ len

def Group.places (G : Group) : Finset Nat := Finset.Ico G.start (G.start + G.len)

theorem tailKeep_le (n m tail : Nat) : tailKeep n m tail ≤ tail := Int.toNat_le.mpr (min_le_left _ _)

/-- The groups of a row that begins at `start`. -/
def rowGroups (s : Settings) (cols start : Nat) : List Group :=
  match s.pattern with
  | none => [⟨start, cols, min cols (rowKeep s cols), min_le_left _ _⟩]
  | some p =>
    ((range (cols / p.1.2)).map fun g => ⟨start + g * p.1.2, p.1.2, p.1.1, p.2.2⟩) ++
      [⟨start + cols / p.1.2 * p.1.2, cols - cols / p.1.2 * p.1.2, _, tailKeep_le p.1.1 p.1.2 _⟩]

def groups (s : Settings) (rows cols : Nat) : List Group := (range rows).flatMap fun r => rowGroups s cols (r * cols)

def dropped (importance : List Nat) (G : Group) : List Nat := lowest importance G.start G.len (G.len - G.keep)

theorem keepCount_le (s : Settings) (total : Nat) : keepCount s total ≤ total := by
  rw [keepCount]
  omega

def pool (s : Settings) (es : List Weight) : Group := ⟨0, (pooled es).length, _, keepCount_le s _⟩

def offset (es : List Weight) (i : Nat) : Nat := ((es.take i).map Weight.size).sum

/-- The mask keeps as many entries of the group as it is to, none of them smaller than one that it drops. -/
structure Selects (importance : List Nat) (mask : List Bool) (G : Group) : Prop where
  count : (G.places.filter fun i => mask.getD i true = true).card = G.keep
  largest : ∀ i ∈ G.places, ∀ j ∈ G.places, mask.getD i true = true → mask.getD j true = false →
    importance.getD j 0 ≤ importance.getD i 0

/-- The second weight is the first one, bit for bit, with zeros where the mask drops. -/
structure Zeroed (mask : List Bool) (w w' : Weight) : Prop where
  kind : w'.kind = w.kind
  elemType : w'.tensor.elemType = w.tensor.elemType
  sizes : w'.tensor.sizes = w.tensor.sizes
  bits : ∀ k < w.size, w'.tensor.patterns.getD k 0 =
    if mask.getD (w.place k) true then w.tensor.patterns.getD k 0 else 0

end

variable {importance : List Nat} {start len n : Nat} {s : Settings}

theorem pairwise_order {row : Nat → Nat} (hnum : ∀ c, row c ≤ infinity) :
    (order row len).Pairwise fun a b => row a ≤ row b := by
  have hle : (fun a b => !less (row b) (row a)) = fun a b => decide (row a ≤ row b) := by
    funext a b
    simp only [less, hnum, decide_true, Bool.true_and, ← decide_not, not_lt]
  rw [order, hle]
  refine (pairwise_mergeSort ?_ ?_ _).imp of_decide_eq_true
  · exact fun a b c hab hbc => decide_eq_true ((of_decide_eq_true hab).trans (of_decide_eq_true hbc))
  · exact fun a b => by simpa using le_total _ _

theorem dropped_spec (hnum : ∀ i, importance.getD i 0 ≤ infinity) (G : Group) :
    (dropped importance G).Nodup ∧ (dropped importance G).length = G.len - G.keep ∧
      (∀ i ∈ dropped importance G, i ∈ G.places) ∧
      ∀ i ∈ dropped importance G, ∀ j ∈ G.places, j ∉ dropped importance G →
        importance.getD i 0 ≤ importance.getD j 0 := by
  have hperm : (order (fun c => importance.getD (G.start + c) 0) G.len).Perm (range G.len) := mergeSort_perm _ _
  have hsorted := @pairwise_order G.len _ fun c => hnum (G.start + c)
  rw [dropped, lowest]
  generalize order (fun c => importance.getD (G.start + c) 0) G.len = order at hperm hsorted ⊢
  refine ⟨?_, ?_, ?_, ?_⟩
  · exact ((hperm.nodup_iff.mpr nodup_range).sublist (take_sublist _ _)).map (add_right_injective G.start)
  · rw [length_map, length_take, hperm.length_eq, length_range, min_eq_left (Nat.sub_le _ _)]
  · intro i hi
    obtain ⟨c, hc, rfl⟩ := mem_map.mp hi
    have hlt := mem_range.mp (hperm.mem_iff.mp (mem_of_mem_take hc))
    exact Finset.mem_Ico.mpr ⟨by omega, by omega⟩
  · intro i hi j hj hnot
    obtain ⟨a, ha, rfl⟩ := mem_map.mp hi
    obtain ⟨hlo, hhi⟩ := Finset.mem_Ico.mp hj
    obtain ⟨b, rfl⟩ := Nat.exists_eq_add_of_le hlo
    have hb : b ∈ order.take (G.len - G.keep) ++ order.drop (G.len - G.keep) := by
      rw [take_append_drop]
      exact hperm.mem_iff.mpr (mem_range.mpr (by omega))
    rw [← take_append_drop (G.len - G.keep) order] at hsorted
    refine (pairwise_append.mp hsorted).2.2 a ha b ?_
    exact (mem_append.mp hb).resolve_left fun h => hnot (mem_map_of_mem h)

theorem maskOf_eq_false {places : List Nat} {i : Nat} (hi : i < n) :
    (maskOf n places).getD i true = false ↔ i ∈ places := by
  have hgen : ∀ mask : List Bool, i < mask.length →
      ((places.foldl (fun mask i => mask.set i false) mask).getD i true = false ↔
        mask.getD i true = false ∨ i ∈ places) := by
    induction places with
    | nil => simp
    | cons p places ih =>
      intro mask hlt
      rw [foldl_cons, ih _ (by rwa [length_set]), mem_cons, ← or_assoc]
      refine or_congr_left ?_
      by_cases hp : p = i
      · simp [hp, hlt]
      · simp [hp, Ne.symm hp]
  rw [maskOf, hgen _ (by rwa [length_replicate])]
  simp [hi]

theorem mem_rowGroups {cols : Nat} {G : Group} (h : G ∈ rowGroups s cols start) :
    start ≤ G.start ∧ G.start + G.len ≤ start + cols := by
  rw [rowGroups] at h
  split at h
  · rw [mem_singleton] at h
    subst h
    exact ⟨le_rfl, le_rfl⟩
  · next p _ =>
    have hfull := Nat.div_mul_le_self cols p.1.2
    cases mem_append.mp h with
    | inl h =>
      obtain ⟨g, hg, rfl⟩ := mem_map.mp h
      have hle := Nat.mul_le_mul_right p.1.2 (mem_range.mp hg)
      rw [Nat.succ_mul] at hle
      exact ⟨Nat.le_add_right _ _, by dsimp only; omega⟩
    | inr h =>
      rw [mem_singleton] at h
      subst h
      exact ⟨Nat.le_add_right _ _, by dsimp only; omega⟩

theorem pairwise_rowGroups (s : Settings) (cols start : Nat) :
    (rowGroups s cols start).Pairwise fun G G' => G.start + G.len ≤ G'.start := by
  have hstep {g g' m : Nat} (h : g < g') : start + g * m + m ≤ start + g' * m := by
    have := Nat.mul_le_mul_right m h
    rw [Nat.succ_mul] at this
    omega
  rw [rowGroups]
  split
  · exact pairwise_singleton _ _
  · refine pairwise_append.mpr ⟨pairwise_map.mpr (pairwise_lt_range.imp hstep), pairwise_singleton _ _, ?_⟩
    intro G hG G' hG'
    obtain ⟨g, hg, rfl⟩ := mem_map.mp hG
    rw [mem_singleton.mp hG']
    exact hstep (mem_range.mp hg)

theorem mem_groups {rows cols : Nat} {G : Group} (h : G ∈ groups s rows cols) : G.start + G.len ≤ rows * cols := by
  obtain ⟨r, hr, hG⟩ := mem_flatMap.mp h
  have hle := Nat.mul_le_mul_right cols (mem_range.mp hr)
  rw [Nat.succ_mul] at hle
  exact (mem_rowGroups hG).2.trans hle

theorem pairwise_groups (s : Settings) (rows cols : Nat) :
    (groups s rows cols).Pairwise fun G G' => G.start + G.len ≤ G'.start := by
  refine pairwise_flatMap.mpr ⟨fun r _ => pairwise_rowGroups s cols _, pairwise_lt_range.imp ?_⟩
  intro r r' hr G hG G' hG'
  have hle := Nat.mul_le_mul_right cols hr
  rw [Nat.succ_mul] at hle
  exact (mem_rowGroups hG).2.trans (hle.trans (mem_rowGroups hG').1)

variable {G : Group}

theorem selects_maskOf {gs : List Group} (hnum : ∀ i, importance.getD i 0 ≤ infinity)
    (hapart : gs.Pairwise fun G G' => G.start + G.len ≤ G'.start) (hin : ∀ G ∈ gs, G.start + G.len ≤ n) (hG : G ∈ gs) :
    Selects importance (maskOf n (gs.flatMap (dropped importance))) G := by
  obtain ⟨hnodup, hlen, hmem, hlow⟩ := dropped_spec hnum G
  have hmask {i : Nat} (hi : i ∈ G.places) :
      (maskOf n (gs.flatMap (dropped importance))).getD i true = false ↔ i ∈ dropped importance G := by
    have hi' := Finset.mem_Ico.mp hi
    rw [maskOf_eq_false (hi'.2.trans_le (hin G hG))]
    refine ⟨fun h => ?_, fun h => mem_flatMap_of_mem hG h⟩
    obtain ⟨G', hG', hd⟩ := mem_flatMap.mp h
    have hi'' := Finset.mem_Ico.mp ((dropped_spec hnum G').2.2.1 i hd)
    obtain ⟨a, ha, rfl⟩ := getElem_of_mem hG
    obtain ⟨b, hb, rfl⟩ := getElem_of_mem hG'
    obtain hab | rfl | hba := lt_trichotomy a b
    · have := pairwise_iff_getElem.mp hapart a b ha hb hab
      omega
    · exact hd
    · have := pairwise_iff_getElem.mp hapart b a hb ha hba
      omega
  have hkept : (G.places.filter fun i => (maskOf n (gs.flatMap (dropped importance))).getD i true = true) =
      G.places \ (dropped importance G).toFinset := by
    ext i
    rw [Finset.mem_filter, Finset.mem_sdiff, mem_toFinset]
    refine and_congr_right fun hi => ?_
    rw [← hmask hi, Bool.not_eq_false]
  constructor
  · have hsub : (dropped importance G).toFinset ⊆ G.places := fun i hi => hmem i (mem_toFinset.mp hi)
    have hle := G.keep_le
    rw [hkept, Finset.card_sdiff_of_subset hsub, toFinset_card_of_nodup hnodup, hlen, Group.places, Nat.card_Ico]
    omega
  · intro i hi j hj hti htj
    refine hlow j ((hmask hj).mp htj) i hi fun h => ?_
    rw [(hmask hi).mpr h] at hti
    cases hti

theorem mask_eq (s : Settings) (data : List Nat) (rows cols : Nat) : magnitudePruningMaskRowMajor s data rows cols =
    maskOf (data.map fabs).length ((groups s rows cols).flatMap (dropped (data.map fabs))) := by
  rw [groups, flatMap_assoc, magnitudePruningMaskRowMajor]
  cases hp : s.pattern with
  | none =>
    have hrow (r : Nat) : (rowGroups s cols (r * cols)).flatMap (dropped (data.map fabs)) =
        lowest (data.map fabs) (r * cols) cols (cols - min cols (rowKeep s cols)) := by
      simp only [rowGroups, hp, flatMap_singleton, dropped]
    simp only [hrow, sparsityMaskRowMajor]
    split
    · next hle =>
      have hnil : ((range rows).flatMap fun r => lowest (data.map fabs) (r * cols) cols 0) = [] :=
        flatMap_eq_nil_iff.mpr fun _ _ => rfl
      rw [min_eq_left hle, Nat.sub_self, hnil]
      rfl
    · next hle => rw [min_eq_right (Nat.le_of_not_le hle)]
  | some p =>
    dsimp only [nmMaskRowMajor]
    congr 1
    refine flatMap_congr fun r _ => ?_
    simp only [rowGroups, hp, flatMap_append, flatMap_map, flatMap_singleton, dropped]
    congr 1
    split
    · rfl
    · next htail =>
      rw [Nat.eq_zero_of_not_pos htail, Nat.zero_sub]
      rfl

variable {w : Weight} {mask : List Bool} {i k : Nat}

theorem pattern_mem (hk : k < w.size) : w.tensor.patterns.getD k 0 ∈ w.tensor.patterns := by
  rw [getD_eq_getElem _ _ ((length_patterns w.held).symm ▸ hk)]
  exact getElem_mem _

theorem getD_le {l : List Nat} {b : Nat} (h : ∀ d ∈ l, d ≤ b) (i : Nat) : l.getD i 0 ≤ b := by
  by_cases hi : i < l.length
  · rw [getD_eq_getElem _ _ hi]
    exact h _ (getElem_mem hi)
  · rw [getD_eq_default _ _ (Nat.not_lt.mp hi)]
    exact Nat.zero_le _

theorem fabs_number (h : w.NoNaN) : ∀ d ∈ w.data.map fabs, d ≤ infinity := by
  intro d hd
  obtain ⟨x, hx, rfl⟩ := mem_map.mp hd
  obtain ⟨i, hi, rfl⟩ := getElem_of_mem hx
  obtain ⟨-, k, hk, hplace⟩ := w.exists_place (hi.trans_eq w.length_data)
  rw [← getD_eq_getElem _ 0 hi, ← hplace, w.data_place hk]
  exact widen_number (patterns_lt (pattern_mem hk)) (h _ (pattern_mem hk))

theorem toOriginal_mask (hk : k < w.size) : (w.toOriginal (applyMaskRowMajor w.data mask)).getD k 0 =
    if mask.getD (w.place k) true then w.tensor.elemType.widen (w.tensor.patterns.getD k 0) else 0 := by
  rw [w.toOriginal_place hk, applyMaskRowMajor, w.length_data, getD_map_range (w.exists_place hk).1, w.data_place hk]

theorem size_written (w : Weight) (mask : List Bool) : (written w mask).size = w.size := congrArg prod type_write.2

theorem place_written (w : Weight) (mask : List Bool) (k : Nat) : (written w mask).place k = w.place k := by
  simp only [Weight.place, Weight.dim, written, type_write.2]

theorem zeroed_written (h : w.NoNaN) (mask : List Bool) : Zeroed mask w (written w mask) := by
  have hlen := w.length_toOriginal (length_applyMask w mask)
  have hentry : ∀ k < w.size, w.tensor.elemType.narrow ((w.toOriginal (applyMaskRowMajor w.data mask)).getD k 0) =
      if mask.getD (w.place k) true then w.tensor.patterns.getD k 0 else 0 := by
    intro k hk
    rw [toOriginal_mask hk]
    split
    · exact narrow_widen (patterns_lt (pattern_mem hk)) (h _ (pattern_mem hk))
    · exact narrow_zero
  refine ⟨rfl, type_write.1, type_write.2, fun k hk => ?_⟩
  rw [← hentry k hk]
  have hlt : ∀ d ∈ w.toOriginal (applyMaskRowMajor w.data mask),
      w.tensor.elemType.narrow d < 256 ^ w.tensor.elemType.size := by
    intro d hd
    obtain ⟨k, hk, rfl⟩ := getElem_of_mem hd
    rw [← getD_eq_getElem _ 0 hk, hentry k (hlen ▸ hk)]
    split
    · exact patterns_lt (pattern_mem (hlen ▸ hk))
    · positivity
  have hmap := getD_map (w.toOriginal (applyMaskRowMajor w.data mask)) 0 w.tensor.elemType.narrow (n := k)
  rw [narrow_zero] at hmap
  exact (congrArg (·.getD k 0) (patterns_write hlen hlt)).trans hmap

theorem noNaN_written (h : w.NoNaN) : (written w mask).NoNaN := by
  intro bits hbits
  obtain ⟨k, hk, rfl⟩ := getElem_of_mem hbits
  have hk' : k < w.size := by
    rw [length_patterns (written w mask).held] at hk
    exact hk.trans_eq (size_written w mask)
  have hz := zeroed_written h mask
  rw [← getD_eq_getElem _ 0 hk, hz.bits k hk', hz.elemType]
  split
  · exact h _ (pattern_mem hk')
  · exact (Nat.zero_mod _).trans_le (Nat.zero_le _)

theorem written_data (h : w.NoNaN) (hi : i < w.size) :
    (written w mask).data.getD i 0 = if mask.getD i true then w.data.getD i 0 else 0 := by
  obtain ⟨-, k, hk, rfl⟩ := w.exists_place hi
  have hz := zeroed_written h mask
  rw [← place_written w mask, (written w mask).data_place (hk.trans_eq (size_written w mask).symm), hz.bits k hk, hz.elemType,
    place_written]
  split
  · exact (w.data_place hk).symm
  · exact widen_zero

theorem selects_layer (s : Settings) (h : w.NoNaN) {G : Group} (hG : G ∈ groups s w.rows w.cols) :
    Selects (w.data.map fabs) (layerMask s w) G := by
  rw [layerMask, mask_eq, length_map, w.length_data, ← w.dims_eq.1]
  exact selects_maskOf (getD_le (fabs_number h)) (pairwise_groups s _ _) (fun G hG => mem_groups hG) hG

theorem exists_group (h : w.NoNaN) (hi : i < w.size) (hd : (layerMask s w).getD i true = false) :
    ∃ G ∈ groups s w.rows w.cols, i ∈ G.places := by
  rw [layerMask, mask_eq, length_map, w.length_data, maskOf_eq_false hi] at hd
  obtain ⟨G, hG, hd⟩ := mem_flatMap.mp hd
  exact ⟨G, hG, (dropped_spec (getD_le (fabs_number h)) G).2.2.1 i hd⟩

/-- What the pruned weight drops is zero: were it not, something that was dropped before would be kept now. -/
theorem prune_again (s : Settings) (h : w.NoNaN) : patternMatchPredicate s (prune s w) = false := by
  have h' : (prune s w).NoNaN := noNaN_written h
  have hsize : (prune s w).size = w.size := size_written w _
  have hgroups : groups s (prune s w).rows (prune s w).cols = groups s w.rows w.cols := by
    simp only [Weight.rows, Weight.cols, Weight.dim, prune, written, type_write.2]
  have hfabs (j : Nat) : ((prune s w).data.map fabs).getD j 0 = fabs ((prune s w).data.getD j 0) :=
    getD_map (prune s w).data 0 fabs
  by_contra hfire
  rw [Bool.not_eq_false, patternMatchPredicate, magnitudePruningWouldChange, any_eq_true] at hfire
  obtain ⟨i, hi, hchange⟩ := hfire
  rw [mem_range, (prune s w).length_data, hsize] at hi
  rw [Bool.and_eq_true, Bool.not_eq_true', bne_iff_ne] at hchange
  obtain ⟨hdrop, hnonzero⟩ := hchange
  obtain ⟨G, hG, hiG⟩ := exists_group h' (hsize ▸ hi) hdrop
  have hnew := selects_layer s h' hG
  rw [hgroups] at hG
  have hold := selects_layer s h hG
  have hkept : (layerMask s w).getD i true = true := by
    by_contra hnot
    rw [Bool.not_eq_true] at hnot
    rw [prune, written_data h hi, hnot] at hnonzero
    exact hnonzero rfl
  -- as many are kept as before, and `i` is not, so some `j` is that was dropped
  have hnsub : ¬ (G.places.filter fun j => (layerMask s (prune s w)).getD j true = true) ⊆
      G.places.filter fun j => (layerMask s w).getD j true = true := by
    intro hsub
    have heq := Finset.eq_of_subset_of_card_le hsub (hold.count.trans hnew.count.symm).le
    have hmem : i ∈ G.places.filter fun j => (layerMask s w).getD j true = true := Finset.mem_filter.mpr ⟨hiG, hkept⟩
    rw [← heq, Finset.mem_filter] at hmem
    exact Bool.noConfusion (hdrop.symm.trans hmem.2)
  obtain ⟨j, hj, hnot⟩ := Finset.not_subset.mp hnsub
  obtain ⟨hjG, hj⟩ := Finset.mem_filter.mp hj
  have hjd : (layerMask s w).getD j true = false := by
    rw [← Bool.not_eq_true]
    exact fun h => hnot (Finset.mem_filter.mpr ⟨hjG, h⟩)
  have hjlt : j < w.size := ((Finset.mem_Ico.mp hjG).2.trans_le (mem_groups hG)).trans_eq w.dims_eq.1
  have hle := hnew.largest j hjG i hiG hj hdrop
  rw [hfabs, hfabs, prune, written_data h hjlt, hjd] at hle
  exact hnonzero (Nat.le_zero.mp hle)

theorem zeroed_entries : ∀ (es : List Weight) (mask : List Bool) (i : Nat) (w : Weight), (∀ w ∈ es, w.NoNaN) →
    es[i]? = some w → ∃ w', (writeEntries es mask)[i]? = some w' ∧ Zeroed (mask.drop (offset es i)) w w' := by
  intro es
  induction es with
  | nil => nofun
  | cons e es ih =>
    intro mask i w h hw
    cases i with
    | zero =>
      cases hw
      exact ⟨written e mask, rfl, zeroed_written (h e mem_cons_self) mask⟩
    | succ i =>
      obtain ⟨w', hw', hz⟩ := ih (mask.drop e.size) i w (fun w hw => h w (mem_cons_of_mem _ hw)) hw
      refine ⟨w', hw', ?_⟩
      rwa [drop_drop] at hz

theorem selects_global (s : Settings) {es : List Weight} (h : ∀ w ∈ es, w.NoNaN) :
    Selects (pooled es) (globalMask s es) (pool s es) := by
  have hnum : ∀ d ∈ pooled es, d ≤ infinity := by
    intro d hd
    obtain ⟨w, hw, hd⟩ := mem_flatMap.mp hd
    exact fabs_number (h w hw) d hd
  have hin : ∀ G ∈ [pool s es], G.start + G.len ≤ (pooled es).length := by
    intro G hG
    rw [mem_singleton.mp hG]
    exact (Nat.zero_add _).le
  have hsel := selects_maskOf (getD_le hnum) (pairwise_singleton _ (pool s es)) hin (mem_singleton_self _)
  rwa [flatMap_singleton] at hsel

/-- Pruning keeps the largest entries of each group, bit for bit, and comes to a stop; over all graphs it keeps the
largest ones of the pool. -/
theorem magnitude_pruning_exact (s : Settings) :
    (∀ w : Weight, w.NoNaN → (∀ G ∈ groups s w.rows w.cols, Selects (w.data.map fabs) (layerMask s w) G) ∧
      Zeroed (layerMask s w) w (prune s w) ∧ patternMatchPredicate s (prune s w) = false) ∧
    ∀ g : List Node, (∀ w ∈ entries g, w.NoNaN) →
      Selects (pooled (entries g)) (globalMask s (entries g)) (pool s (entries g)) ∧
        ∀ i w, (entries g)[i]? = some w → ∃ w', (magnitudePruningGlobal s g)[i]? = some w' ∧
          Zeroed ((globalMask s (entries g)).drop (offset (entries g) i)) w w' := by
  refine ⟨fun w h => ⟨fun G hG => selects_layer s h hG, zeroed_written h _, prune_again s h⟩, fun g h => ?_⟩
  exact ⟨selects_global s h, fun i w hw => zeroed_entries _ _ i w h hw⟩

/-- Two rows of three halves, one of them subnormal, in pairs and tails of one. -/
def halves : Weight where
  kind := .matMul false
  tensor := { elemType := .float16, sizes := [3, 2], int32s := [0x3C00, 1, 0x8000, 0x3800, 0x4000, 0] }
  ranked := rfl
  held := rfl

def oneOfTwo : Settings where
  sparsity := .fin 0
  pattern := some ⟨(1, 2), by decide⟩

theorem magnitude_pruning_exact_halves :
    (∀ G ∈ groups oneOfTwo halves.rows halves.cols,
      Selects (halves.data.map fabs) (layerMask oneOfTwo halves) G) ∧
    ∃ w', (magnitudePruningGlobal oneOfTwo [.mk (some halves) []])[0]? = some w' := by
  have hnum : halves.NoNaN := by
    unfold Weight.NoNaN ElemType.IsNumber
    decide
  have hentries : entries [.mk (some halves) []] = [halves] := rfl
  obtain ⟨hlayer, hglobal⟩ := magnitude_pruning_exact oneOfTwo
  refine ⟨(hlayer halves hnum).1, ?_⟩
  obtain ⟨w', hw', -⟩ := (hglobal [.mk (some halves) []] (by rw [hentries]; simpa using hnum)).2 0 halves rfl
  exact ⟨w', hw'⟩

end Onnxsim.Pruning.Magnitude
