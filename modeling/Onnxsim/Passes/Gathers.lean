import Mathlib.Data.List.GetD
import Onnxsim.Reduce.Fusion
import Onnxsim.ShapeRanges.Broadcasting

namespace Onnxsim.Passes.Gathers

open List Option Overflow.Arrays
open Reduce.Axes (ofFn_congr)
open Reduce.Fusion (Dimension)

variable {α : Type} [Inhabited α]

def knownSize : Dimension → Option Int
  | .size d => some d
  | _ => none

/-- The recorded sizes are those of the tensor at run time. -/
def Recorded (ds : Option (List Dimension)) (shape : List Nat) : Prop :=
  ∀ l, ds = some l → List.Forall₂ (fun d (n : Nat) => ∀ m : Int, d = .size m → m = n) l shape

theorem sizes_of_recorded {ds : List Dimension} {shape : List Nat} {l : List Int}
    (h : List.Forall₂ (fun d (n : Nat) => ∀ m : Int, d = .size m → m = n) ds shape) (hl : ds.mapM knownSize = some l) :
    l = shape.map (Nat.cast : Nat → Int) := by
  induction h generalizing l with
  | nil =>
    cases hl
    rfl
  | cons hd hrest ih =>
    rw [mapM_cons] at hl
    obtain ⟨m, hm, hl⟩ := bind_eq_some_iff.mp hl
    obtain ⟨rest, hl', hcons⟩ := bind_eq_some_iff.mp hl
    cases hcons
    rw [map_cons, ih hl']
    congr 1
    apply hd
    unfold knownSize at hm
    split at hm
    · cases hm
      rfl
    · cases hm

/-- The position that `i` counts from the start or from the end; none when it is not in `[-n, n)`. -/
def place (n : Nat) (i : Int) : Option Nat :=
  if 0 ≤ i ∧ i < n then some i.toNat
  else if -(n : Int) ≤ i ∧ i < 0 then some (i + n).toNat
  else none

def gathered (k : Nat) (data : NDArray α) (idx : NDArray Int) : NDArray α :=
  NDArray.ofFn (data.shape.take k ++ (idx.shape ++ data.shape.drop (k + 1))) fun p =>
    readAt data (p.take k ++
      (place (data.shape.getD k 0) (readAt idx ((p.drop k).take idx.shape.length))).getD 0 ::
        (p.drop k).drop idx.shape.length)

/-- The indices stand in the place of one axis of the data. -/
def gather (axis : Int) (data : NDArray α) (idx : NDArray Int) : Option (NDArray α) :=
  (place data.shape.length axis).bind fun k =>
    if ∀ i ∈ idx.data, (place (data.shape.getD k 0) i).isSome then some (gathered k data idx) else none

/-- The part of an array from `start` on along one axis. -/
def slab (k start len : Nat) (x : NDArray α) : NDArray α :=
  NDArray.ofFn (x.shape.set k len) fun p => readAt x (p.set k (p.getD k 0 + start))

def slabs (k : Nat) (x : NDArray α) : Nat → List Nat → List (NDArray α)
  | _, [] => []
  | start, len :: sizes => slab k start len x :: slabs k x (start + len) sizes

def split (axis : Int) (sizes : List Nat) (x : NDArray α) : Option (List (NDArray α)) :=
  (place x.shape.length axis).bind fun k =>
    if sizes.sum = x.shape.getD k 0 then some (slabs k x 0 sizes) else none

def readChunks (k : Nat) : List (NDArray α) → List Nat → α
  | [], _ => default
  | x :: xs, p =>
    if p.getD k 0 < x.shape.getD k 0 then readAt x p
    else readChunks k xs (p.set k (p.getD k 0 - x.shape.getD k 0))

def concat (axis : Int) : List (NDArray α) → Option (NDArray α)
  | [] => none
  | x :: xs =>
    (place x.shape.length axis).bind fun k =>
      if ∀ y ∈ xs, y.shape.set k 0 = x.shape.set k 0 then
        some (NDArray.ofFn (x.shape.set k ((x :: xs).map fun y => y.shape.getD k 0).sum) (readChunks k (x :: xs)))
      else none

variable {a c s p sizes : List Nat} {i : Nat} {y w : NDArray α} {axis : Int}

section

variable {k n : Nat} {post pre : List Nat}

theorem place_lt {i : Int} (h : place n i = some k) : k < n := by
  unfold place at h
  split at h
  · cases h
    omega
  · split at h
    · cases h
      omega
    · cases h

theorem place_eq_some {i : Int} : place n i = some k ↔ k < n ∧ (i = k ∨ i = k - n) := by
  constructor
  · intro h
    refine ⟨place_lt h, ?_⟩
    unfold place at h
    split at h
    · cases h
      omega
    · split at h
      · cases h
        omega
      · cases h
  · rintro ⟨hk, rfl | rfl⟩
    · rw [place, if_pos (by omega), Int.toNat_natCast]
    · rw [place, if_neg (by omega), if_pos (by omega)]
      congr 1
      omega

theorem set_mid (i j : Nat) (h : a.length = k) : (a ++ i :: c).set k j = a ++ j :: c := by
  subst h
  simp

theorem getD_mid (i : Nat) (h : a.length = k) : (a ++ i :: c).getD k 0 = i := by
  subst h
  simp

theorem exists_mid (h : k < s.length) : ∃ pre n post, s = pre ++ n :: post ∧ pre.length = k := by
  refine ⟨s.take k, s[k], s.drop (k + 1), ?_, ?_⟩
  · simp
  · rw [length_take]
    omega

theorem exists_of_mem_indices_append {s' : List Nat} (h : p ∈ indices (s ++ s')) :
    ∃ a b, p = a ++ b ∧ a ∈ indices s ∧ b ∈ indices s' := by
  induction s generalizing p with
  | nil => exact ⟨[], p, rfl, mem_singleton.mpr rfl, h⟩
  | cons n s ih =>
    obtain ⟨i, rest, rfl, hi, hrest⟩ := exists_of_mem_indices_cons h
    obtain ⟨a, b, rfl, ha, hb⟩ := ih hrest
    exact ⟨i :: a, b, rfl, mem_indices_cons.mpr ⟨hi, ha⟩, hb⟩

theorem exists_of_mem_indices_mid (h : p ∈ indices (pre ++ n :: post)) :
    ∃ a i c, p = a ++ i :: c ∧ a ∈ indices pre ∧ i < n ∧ c ∈ indices post := by
  obtain ⟨a, b, rfl, ha, hb⟩ := exists_of_mem_indices_append h
  obtain ⟨i, c, rfl, hi, hc⟩ := exists_of_mem_indices_cons hb
  exact ⟨a, i, c, rfl, ha, hi, hc⟩

theorem mid_mem_indices (ha : a ∈ indices pre) (hi : i < n) (hc : c ∈ indices post) :
    a ++ i :: c ∈ indices (pre ++ n :: post) :=
  append_mem_indices ha (mem_indices_cons.mpr ⟨hi, hc⟩)

theorem readAt_ofFn (f : List Nat → α) (h : p ∈ indices s) : readAt (NDArray.ofFn s f) p = f p := by
  rw [readAt, NDArray.get?_ofFn f h, getD_some]

theorem ofFn_readAt (x : NDArray α) : NDArray.ofFn x.shape (readAt x) = x := by
  refine Onnxsim.Reduce.Axes.ext rfl ?_
  have hread : readAt x = (fun o : Option Nat => (o.bind fun k => x.data[k]?).getD default) ∘ offset x.shape := rfl
  show (indices x.shape).map (readAt x) = x.data
  rw [hread, ← List.map_map, map_offset_indices, List.map_map, ← x.length_data]
  apply ext_getElem (by simp)
  intro i h₁ h₂
  simp [h₂]

theorem ext_readAt {x : NDArray α} (hs : x.shape = y.shape) (h : ∀ p ∈ indices x.shape, readAt x p = readAt y p) :
    x = y := by
  rw [← ofFn_readAt x, ← ofFn_readAt y]
  exact ofFn_congr hs h

theorem mem_data {x : NDArray α} {v : α} : v ∈ x.data ↔ ∃ p ∈ indices x.shape, readAt x p = v := by
  conv_lhs => rw [← ofFn_readAt x]
  exact NDArray.mem_ofFn

variable {data : NDArray α} {idx : NDArray Int}

theorem shape_gathered (hs : data.shape = pre ++ n :: post) (hk : pre.length = k) :
    (gathered k data idx).shape = pre ++ (idx.shape ++ post) := by
  subst hk
  show data.shape.take pre.length ++ (idx.shape ++ data.shape.drop (pre.length + 1)) = _
  rw [hs]
  simp

theorem readAt_gathered (hs : data.shape = pre ++ n :: post) (hk : pre.length = k) {b : List Nat}
    (ha : a ∈ indices pre) (hb : b ∈ indices idx.shape) (hc : c ∈ indices post) :
    readAt (gathered k data idx) (a ++ (b ++ c)) = readAt data (a ++ (place n (readAt idx b)).getD 0 :: c) := by
  have hshape : (gathered k data idx).shape = pre ++ (idx.shape ++ post) := shape_gathered hs hk
  have hmem : a ++ (b ++ c) ∈ indices (pre ++ (idx.shape ++ post)) := append_mem_indices ha (append_mem_indices hb hc)
  rw [← hshape] at hmem
  have hla := length_of_mem_indices ha
  have hlb := length_of_mem_indices hb
  refine (readAt_ofFn _ hmem).trans ?_
  rw [hs, getD_mid n hk, ← hk, ← hla, ← hlb]
  simp

theorem gather_eq_some : gather axis data idx = some y ↔
    ∃ k, place data.shape.length axis = some k ∧ (∀ i ∈ idx.data, (place (data.shape.getD k 0) i).isSome) ∧
      gathered k data idx = y := by
  simp [gather, bind_eq_some_iff]

variable {x : NDArray α} {start len : Nat} (hs : x.shape = pre ++ n :: post) (hk : pre.length = k)

include hs hk

theorem shape_slab : (slab k start len x).shape = pre ++ len :: post := by
  show x.shape.set k len = _
  rw [hs, set_mid n len hk]

theorem readAt_slab (ha : a ∈ indices pre) (hi : i < len) (hc : c ∈ indices post) :
    readAt (slab k start len x) (a ++ i :: c) = readAt x (a ++ (i + start) :: c) := by
  have hmem : a ++ i :: c ∈ indices (slab k start len x).shape := by
    rw [shape_slab hs hk]
    exact mid_mem_indices ha hi hc
  refine (readAt_ofFn _ hmem).trans ?_
  have hla : a.length = k := (length_of_mem_indices ha).trans hk
  rw [getD_mid i hla, set_mid i _ hla]

theorem readChunks_slabs (ha : a ∈ indices pre) (hi : i < sizes.sum) (hc : c ∈ indices post) :
    readChunks k (slabs k x start sizes) (a ++ i :: c) = readAt x (a ++ (i + start) :: c) := by
  have hla : a.length = k := (length_of_mem_indices ha).trans hk
  induction sizes generalizing i start with
  | nil => simp at hi
  | cons len sizes ih =>
    rw [slabs, readChunks, shape_slab hs hk, getD_mid len hk, getD_mid i hla]
    by_cases hlen : i < len
    · rw [if_pos hlen, readAt_slab hs hk ha hlen hc]
    · rw [sum_cons] at hi
      have hshift : i - len + (start + len) = i + start := by omega
      rw [if_neg hlen, set_mid i _ hla, ih (by omega), hshift]

theorem shapes_slabs (sizes : List Nat) :
    ((slabs k x start sizes).map fun y => y.shape) = sizes.map fun len => pre ++ len :: post := by
  induction sizes generalizing start with
  | nil => rfl
  | cons len sizes ih => rw [slabs, map_cons, map_cons, ih, shape_slab hs hk]

theorem shape_of_mem_slabs (h : y ∈ slabs k x start sizes) : ∃ len ∈ sizes, y.shape = pre ++ len :: post := by
  have hmem : y.shape ∈ (slabs k x start sizes).map fun y => y.shape := List.mem_map_of_mem h
  rw [shapes_slabs hs hk] at hmem
  obtain ⟨len, hlen, heq⟩ := List.mem_map.mp hmem
  exact ⟨len, hlen, heq.symm⟩

theorem sum_sizes_slabs (sizes : List Nat) :
    ((slabs k x start sizes).map fun y => y.shape.getD k 0).sum = sizes.sum := by
  have hmap : (slabs k x start sizes).map (fun y => y.shape.getD k 0) = sizes := by
    have hcomp : (fun y : NDArray α => y.shape.getD k 0) = (fun s : List Nat => s.getD k 0) ∘ fun y => y.shape := rfl
    rw [hcomp, ← List.map_map, shapes_slabs hs hk, List.map_map]
    apply map_id''
    intro len
    exact getD_mid len hk
  rw [hmap]

omit hs hk

theorem concat_slabs (hk : place x.shape.length axis = some k) (hne : sizes ≠ [])
    (hsum : sizes.sum = x.shape.getD k 0) : concat axis (slabs k x 0 sizes) = some x := by
  obtain ⟨pre, n, post, hs, hlen⟩ := exists_mid (place_lt hk)
  cases sizes with
  | nil => exact absurd rfl hne
  | cons len sizes =>
    rw [hs, getD_mid n hlen] at hsum
    have hrank : (slab k 0 len x).shape.length = x.shape.length := length_set
    have hother : ∀ y ∈ slabs k x (0 + len) sizes, y.shape.set k 0 = (slab k 0 len x).shape.set k 0 := by
      intro y hy
      obtain ⟨len', -, hy⟩ := shape_of_mem_slabs hs hlen hy
      rw [hy, shape_slab hs hlen, set_mid _ _ hlen, set_mid _ _ hlen]
    have hshape : (slab k 0 len x).shape.set k
        ((slabs k x 0 (len :: sizes)).map fun y => y.shape.getD k 0).sum = x.shape := by
      rw [sum_sizes_slabs hs hlen, hsum, shape_slab hs hlen, set_mid _ _ hlen, hs]
    rw [slabs, concat, hrank, hk, bind_some, if_pos hother]
    congr 1
    apply ext_readAt hshape
    intro p hp
    refine (readAt_ofFn _ hp).trans ?_
    have hp' : p ∈ indices (pre ++ n :: post) := by
      rw [← hs, ← hshape]
      exact hp
    obtain ⟨a, i, c, rfl, ha, hi, hc⟩ := exists_of_mem_indices_mid hp'
    have hsum' : i < (len :: sizes).sum := by omega
    exact readChunks_slabs hs hlen ha hsum' hc

theorem getElem?_slabs (k : Nat) (x : NDArray α) (start : Nat) (sizes : List Nat) (i : Nat) :
    (slabs k x start sizes)[i]? = sizes[i]?.map fun len => slab k (start + (sizes.take i).sum) len x := by
  induction sizes generalizing start i with
  | nil => rfl
  | cons len sizes ih =>
    cases i with
    | zero => rfl
    | succ i =>
      rw [slabs, getElem?_cons_succ, getElem?_cons_succ, ih, take_succ_cons, sum_cons,
        Nat.add_assoc]

variable {xs : List (NDArray α)}

theorem slabs_of_readChunks (hw : w.shape = pre ++ n :: post) (hk : pre.length = k)
    (hall : ∀ x ∈ xs, ∃ len, x.shape = pre ++ len :: post)
    (hread : ∀ a i c, a ∈ indices pre → i < (xs.map fun x => x.shape.getD k 0).sum → c ∈ indices post →
      readAt w (a ++ (i + start) :: c) = readChunks k xs (a ++ i :: c)) :
    slabs k w start (xs.map fun x => x.shape.getD k 0) = xs := by
  induction xs generalizing start with
  | nil => rfl
  | cons x xs ih =>
    rw [forall_mem_cons] at hall
    obtain ⟨⟨len, hx⟩, hall⟩ := hall
    have hlen : x.shape.getD k 0 = len := by rw [hx, getD_mid len hk]
    rw [map_cons, hlen] at hread ⊢
    have hfirst : slab k start len w = x := by
      apply ext_readAt ((shape_slab hw hk).trans hx.symm)
      intro p hp
      rw [shape_slab hw hk] at hp
      obtain ⟨a, i, c, rfl, ha, hi, hc⟩ := exists_of_mem_indices_mid hp
      have hla : a.length = k := (length_of_mem_indices ha).trans hk
      rw [readAt_slab hw hk ha hi hc, hread a i c ha (by rw [sum_cons]; omega) hc, readChunks, hlen,
        getD_mid i hla, if_pos hi]
    rw [slabs, hfirst, ih hall]
    intro a i c ha hi hc
    have hla : a.length = k := (length_of_mem_indices ha).trans hk
    have hnext := hread a (i + len) c ha (by rw [sum_cons]; omega) hc
    rw [readChunks, hlen, getD_mid _ hla, if_neg (by omega), set_mid _ _ hla, Nat.add_sub_cancel] at hnext
    rw [← hnext, Nat.add_assoc, Nat.add_comm len start]

theorem slabs_of_concat (h : concat axis xs = some w) :
    ∃ k, place w.shape.length axis = some k ∧ w.shape.getD k 0 = (xs.map fun x => x.shape.getD k 0).sum ∧
      slabs k w 0 (xs.map fun x => x.shape.getD k 0) = xs := by
  cases xs with
  | nil => cases h
  | cons x xs =>
    obtain ⟨k, hk, h⟩ := bind_eq_some_iff.mp h
    split at h
    · next hagree =>
      obtain rfl := Option.some.inj h
      obtain ⟨pre, n, post, hs, hpre⟩ := exists_mid (place_lt hk)
      have hall : ∀ z ∈ x :: xs, ∃ len, z.shape = pre ++ len :: post := by
        rw [forall_mem_cons]
        refine ⟨⟨n, hs⟩, ?_⟩
        intro z hz
        have hset := hagree z hz
        have hlen := congrArg List.length hset
        rw [length_set, length_set] at hlen
        obtain ⟨pre', n', post', hz', hpre'⟩ := exists_mid (hlen ▸ place_lt hk)
        rw [hs, set_mid n 0 hpre, hz', set_mid n' 0 hpre'] at hset
        obtain ⟨rfl, hrest⟩ := append_inj hset (hpre'.trans hpre.symm)
        obtain ⟨-, rfl⟩ := List.cons.inj hrest
        exact ⟨n', hz'⟩
      generalize hf : readChunks k (x :: xs) = f
      generalize hsum : ((x :: xs).map fun y => y.shape.getD k 0).sum = total
      have hw : (NDArray.ofFn (x.shape.set k total) f).shape = pre ++ total :: post := by
        show x.shape.set k total = _
        rw [hs, set_mid n total hpre]
      refine ⟨k, ?_, ?_, ?_⟩
      · rw [hw, ← hk, hs]
        simp
      · rw [hw, getD_mid total hpre, hsum]
      · apply slabs_of_readChunks hw hpre hall
        intro a i c ha hi hc
        rw [hsum] at hi
        rw [hf, Nat.add_zero]
        apply readAt_ofFn
        rw [hs, set_mid n total hpre]
        exact mid_mem_indices ha hi hc
    · cases h

end

variable {data : NDArray α} {idx : NDArray Int} {k j start len : Nat}

theorem gathered_slab (hk : k < data.shape.length) (hj : j < idx.shape.length)
    (hlen : start + len ≤ idx.shape.getD j 0) :
    gathered k data (slab j start len idx) = slab (k + j) start len (gathered k data idx) := by
  obtain ⟨pre, n, post, hs, hpre⟩ := exists_mid hk
  obtain ⟨left, m, right, hi, hleft⟩ := exists_mid hj
  rw [hi, getD_mid m hleft] at hlen
  have hwhole : (gathered k data idx).shape = (pre ++ left) ++ m :: (right ++ post) := by
    rw [shape_gathered hs hpre, hi]
    simp
  have hpl : (pre ++ left).length = k + j := by rw [length_append, hpre, hleft]
  have hshape : (gathered k data (slab j start len idx)).shape = (pre ++ left) ++ len :: (right ++ post) := by
    rw [shape_gathered hs hpre, shape_slab hi hleft]
    simp
  apply ext_readAt (hshape.trans (shape_slab hwhole hpl).symm)
  intro p hp
  rw [shape_gathered hs hpre, shape_slab hi hleft] at hp
  obtain ⟨a, bc, rfl, ha, hbc⟩ := exists_of_mem_indices_append hp
  obtain ⟨b, c, rfl, hb, hc⟩ := exists_of_mem_indices_append hbc
  have hb' := hb
  rw [← shape_slab hi hleft] at hb'
  rw [readAt_gathered hs hpre ha hb' hc]
  obtain ⟨b₁, i, b₂, rfl, hb₁, hlt, hb₂⟩ := exists_of_mem_indices_mid hb
  have hshift : b₁ ++ (i + start) :: b₂ ∈ indices idx.shape := by
    rw [hi]
    exact mid_mem_indices hb₁ (by omega) hb₂
  rw [readAt_slab hi hleft hb₁ hlt hb₂, ← readAt_gathered hs hpre ha hshift hc]
  have hparts : ∀ v, a ++ (b₁ ++ v :: b₂ ++ c) = (a ++ b₁) ++ v :: (b₂ ++ c) := by simp
  rw [hparts, hparts, readAt_slab hwhole hpl (append_mem_indices ha hb₁) hlt (append_mem_indices hb₂ hc)]

theorem mem_data_slab (hj : j < idx.shape.length) (hlen : start + len ≤ idx.shape.getD j 0) {v : Int}
    (h : v ∈ (slab j start len idx).data) : v ∈ idx.data := by
  obtain ⟨left, m, right, hi, hleft⟩ := exists_mid hj
  rw [hi, getD_mid m hleft] at hlen
  obtain ⟨p, hp, rfl⟩ := mem_data.mp h
  rw [shape_slab hi hleft] at hp
  obtain ⟨b₁, i, b₂, rfl, hb₁, hlt, hb₂⟩ := exists_of_mem_indices_mid hp
  rw [readAt_slab hi hleft hb₁ hlt hb₂]
  apply mem_data.mpr
  refine ⟨_, ?_, rfl⟩
  rw [hi]
  exact mid_mem_indices hb₁ (by omega) hb₂

theorem mapM_gather_slabs (hk : place data.shape.length axis = some k)
    (hrange : ∀ i ∈ idx.data, (place (data.shape.getD k 0) i).isSome) (hj : j < idx.shape.length)
    (hsum : start + sizes.sum ≤ idx.shape.getD j 0) :
    (slabs j idx start sizes).mapM (gather axis data) = some (slabs (k + j) (gathered k data idx) start sizes) := by
  induction sizes generalizing start with
  | nil => rfl
  | cons len sizes ih =>
    rw [sum_cons] at hsum
    have hfirst : gather axis data (slab j start len idx) = some (slab (k + j) start len (gathered k data idx)) := by
      rw [gather_eq_some]
      refine ⟨k, hk, ?_, gathered_slab (place_lt hk) hj (by omega)⟩
      intro i hi
      exact hrange i (mem_data_slab hj (by omega) hi)
    rw [slabs, mapM_cons, hfirst, ih (by omega)]
    rfl

theorem gathered_of_slab {idx' : NDArray Int} {pre post : List Nat} {n : Nat} (hw : w.shape = pre ++ n :: post)
    (hk : pre.length = k) (hshape : idx'.shape = idx.shape)
    (h : ∀ p ∈ indices idx.shape, ∃ l, place len (readAt idx' p) = some l ∧ place n (readAt idx p) = some (l + start)) :
    gathered k (slab k start len w) idx' = gathered k w idx := by
  have hslab : (slab k start len w).shape = pre ++ len :: post := shape_slab hw hk
  have hleft : (gathered k (slab k start len w) idx').shape = pre ++ (idx.shape ++ post) := by
    rw [shape_gathered hslab hk, hshape]
  apply ext_readAt (hleft.trans (shape_gathered hw hk).symm)
  intro p hp
  rw [hleft] at hp
  obtain ⟨a, bc, rfl, ha, hbc⟩ := exists_of_mem_indices_append hp
  obtain ⟨b, c, rfl, hb, hc⟩ := exists_of_mem_indices_append hbc
  obtain ⟨l, hl, hl'⟩ := h b hb
  rw [readAt_gathered hw hk ha hb hc, readAt_gathered hslab hk ha (by rw [hshape]; exact hb) hc, hl, hl',
    getD_some, getD_some, readAt_slab hw hk ha (place_lt hl) hc]

theorem exists_slab_of_mem {v : Int} {left right : List Nat} {m : Nat} {b₁ b₂ : List Nat}
    (hs : idx.shape = left ++ m :: right) (hleft : left.length = j) (hb₁ : b₁ ∈ indices left)
    (hb₂ : b₂ ∈ indices right) (hi : i < sizes.sum) (hv : readAt idx (b₁ ++ (i + start) :: b₂) = v) :
    ∃ y ∈ slabs j idx start sizes, v ∈ y.data := by
  induction sizes generalizing i start with
  | nil => simp at hi
  | cons len sizes ih =>
    rw [sum_cons] at hi
    by_cases hlen : i < len
    · refine ⟨_, mem_cons_self, mem_data.mpr ⟨b₁ ++ i :: b₂, ?_, ?_⟩⟩
      · rw [shape_slab hs hleft]
        exact mid_mem_indices hb₁ hlen hb₂
      · rw [readAt_slab hs hleft hb₁ hlen hb₂, hv]
    · have hrest : i - len + (start + len) = i + start := by omega
      have hv' : readAt idx (b₁ ++ (i - len + (start + len)) :: b₂) = v := by rw [hrest, hv]
      obtain ⟨y, hy, hmem⟩ := ih (by omega) hv'
      exact ⟨y, mem_cons_of_mem _ hy, hmem⟩

end Onnxsim.Passes.Gathers
