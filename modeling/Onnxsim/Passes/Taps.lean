import Onnxsim.Passes.Paddings

namespace Onnxsim.Passes.Taps

open List Option Overflow.Arrays Gathers Paddings Windows
open Reduce.Axes (ofFn_congr)
open ShapeRanges.Broadcasting (actualBroadcast2 actualBroadcastDim actualBroadcastDims actualPad)

variable {α : Type} [Inhabited α] [Semiring α]

def addArrays (a b : NDArray α) : Option (NDArray α) :=
  (actualBroadcast2 a.shape b.shape).map fun s =>
    NDArray.ofFn s fun idx => readAt a (alignIndex a.shape idx) + readAt b (alignIndex b.shape idx)

def sumAll : List (NDArray α) → Option (NDArray α)
  | [] => none
  | p :: ps => ps.foldlM addArrays p

/-- Where the slice of a tap begins in an input of the given length. -/
def sliceStart (t : Taps) (len j : Nat) : Nat := min (j * t.dilation) len

def sliceLength (t : Taps) (len j : Nat) : Nat := min (j * t.dilation + t.length) len - min (j * t.dilation) len

def tapWeight (w : NDArray α) (j : Nat) : NDArray α :=
  NDArray.ofFn [w.shape.headD 0, w.shape.getD 1 0, 1] fun idx => readAt w [idx.headD 0, idx.getD 1 0, j]

def tapAttributes : Attributes := ⟨none, some [1], some [0, 0], some [1], some [1], false⟩

def part (t : Taps) (y w : NDArray α) (bias : Option (NDArray α)) (j : Nat) : Option (NDArray α) :=
  let len := y.shape.getD 2 0
  conv tapAttributes 1 (slab 2 (sliceStart t len j) (sliceLength t len j) y) (tapWeight w j) (if j = 0 then bias else none)

/-- What the nodes that replace a dilated convolution compute. -/
def run (t : Taps) (x w : NDArray α) (bias : Option (NDArray α)) : Option (NDArray α) :=
  (pad (t.padPads.take 3) (t.padPads.drop 3) 0 x).bind fun y =>
    ((List.range t.taps).mapM (part t y w bias)).bind sumAll

/-- Wherever the convolution is defined, the nodes compute it. -/
def TapsCorrect (α : Type) [Inhabited α] [Semiring α] (attrs : Attributes) (t : Taps) (size : Nat) : Prop :=
  ∀ (batch : Nat) (x w : NDArray α) (bias : Option (NDArray α)) (z : NDArray α), Operands 1 batch [size] [t.taps] x w →
    conv attrs 1 x w bias = some z → run t x w bias = some z

/-- The slices have the length of the result, or the sum broadcasts them to it, and every tap reads what it reads in
the convolution. -/
structure SlicesAgree (attrs : Attributes) (t : Taps) (padBegin : Int) (size len : Nat) : Prop where
  lengths : ∀ j < t.taps, sliceLength t len j = t.length ∨ sliceLength t len j = 1
  whole : ∃ j < t.taps, sliceLength t len j = t.length
  reads : ∀ g, grid attrs [t.taps] [size] = some g → ∀ o < t.length, ∀ j < t.taps,
    unpad [padBegin] [size] [sliceStart t len j + if sliceLength t len j = 1 then 0 else o] =
      (cells g.axes [size] [o] [j]).read

variable {l o : Nat} {batch channels : Nat}

theorem broadcast_last (l l' : Nat) :
    actualBroadcast2 [batch, channels, l] [batch, channels, l'] =
      (actualBroadcastDim l l').map fun m => [batch, channels, m] := by
  have hself : ∀ n, actualBroadcastDim n n = some n := fun n => if_pos rfl
  show actualBroadcastDims [batch, channels, l] [batch, channels, l'] = _
  rw [actualBroadcastDims, actualBroadcastDims, actualBroadcastDims, hself, hself]
  cases actualBroadcastDim l l' <;> rfl

variable {n c l' m : Nat} {ps : List (NDArray α)} {acc : NDArray α}

theorem align_last (hn : n < batch) (hc : c < channels) :
    alignIndex [batch, channels, l] [n, c, o] = [n, c, if l = 1 then 0 else o] := by
  show [if batch = 1 then 0 else n, if channels = 1 then 0 else c, if l = 1 then 0 else o] = _
  congr 1
  · split <;> omega
  · congr 1
    split <;> omega

theorem mem_three (hn : n < batch) (hc : c < channels) (ho : o < l) : [n, c, o] ∈ indices [batch, channels, l] :=
  mem_indices_cons.mpr ⟨hn, mem_indices_cons.mpr ⟨hc, mem_indices_cons.mpr ⟨ho, mem_singleton.mpr rfl⟩⟩⟩

theorem addArrays_spec {a b : NDArray α} (ha : a.shape = [batch, channels, l]) (hb : b.shape = [batch, channels, l']) :
    (∃ m, actualBroadcastDim l l' = some m ∧ ∃ z, addArrays a b = some z ∧
      z.shape = [batch, channels, m] ∧ ∀ n < batch, ∀ c < channels, ∀ o < m, readAt z [n, c, o] =
        readAt a [n, c, if l = 1 then 0 else o] + readAt b [n, c, if l' = 1 then 0 else o]) ∨
    (actualBroadcastDim l l' = none ∧ addArrays a b = none) := by
  cases hm : actualBroadcastDim l l' with
  | none =>
    refine Or.inr ⟨rfl, ?_⟩
    rw [addArrays, ha, hb, broadcast_last, hm]
    rfl
  | some m =>
    have hadd : addArrays a b = some (NDArray.ofFn [batch, channels, m] fun idx =>
        readAt a (alignIndex a.shape idx) + readAt b (alignIndex b.shape idx)) := by
      rw [addArrays, ha, hb, broadcast_last, hm]
      rfl
    refine Or.inl ⟨m, rfl, _, hadd, rfl, ?_⟩
    intro n hn c hc o ho
    refine (readAt_ofFn _ (mem_three hn hc ho)).trans ?_
    rw [ha, hb, align_last hn hc, align_last hn hc]

theorem broadcastDim_cases (h : actualBroadcastDim l l' = some m) :
    (l = m ∨ l = 1) ∧ (l' = m ∨ l' = 1) ∧ (l = m ∨ l' = m) := by
  unfold actualBroadcastDim at h
  split at h
  · cases h
    omega
  · split at h
    · cases h
      omega
    · split at h
      · cases h
        omega
      · cases h

def lastLength (p : NDArray α) : Nat := p.shape.getD 2 0

/-- What a sum that is defined looks like. -/
structure Summed (batch channels : Nat) (acc : NDArray α) (ps : List (NDArray α)) (z : NDArray α) (m : Nat) : Prop where
  shape_eq : z.shape = [batch, channels, m]
  first : lastLength acc = m ∨ lastLength acc = 1
  rest : ∀ p ∈ ps, lastLength p = m ∨ lastLength p = 1
  whole : lastLength acc = m ∨ ∃ p ∈ ps, lastLength p = m
  read_eq : ∀ n < batch, ∀ c < channels, ∀ o < m, readAt z [n, c, o] =
    readAt acc [n, c, if lastLength acc = 1 then 0 else o] +
      (ps.map fun p => readAt p [n, c, if lastLength p = 1 then 0 else o]).sum

theorem summed_of_foldlM {z : NDArray α} (hacc : acc.shape = [batch, channels, l])
    (hps : ∀ p ∈ ps, p.shape = [batch, channels, lastLength p]) (h : ps.foldlM addArrays acc = some z) :
    ∃ m, Summed batch channels acc ps z m := by
  induction ps generalizing acc l with
  | nil =>
    cases h
    have hlast : lastLength z = l := by rw [lastLength, hacc]; rfl
    refine ⟨l, hacc, Or.inl hlast, by simp, Or.inl hlast, ?_⟩
    intro n hn c hc o ho
    rw [hlast, map_nil, sum_nil, add_zero]
    split
    · next hone =>
      have : o = 0 := by omega
      rw [this]
    · rfl
  | cons p ps ih =>
    rw [forall_mem_cons] at hps
    have hlast : lastLength acc = l := by rw [lastLength, hacc]; rfl
    rw [foldlM_cons] at h
    obtain ⟨acc', hacc', h⟩ := bind_eq_some_iff.mp h
    obtain ⟨m, hm, z', hz', hshape, hread⟩ | ⟨-, hnone⟩ := addArrays_spec hacc hps.1
    · rw [hz'] at hacc'
      obtain rfl := Option.some.inj hacc'
      obtain ⟨hl, hp, hwhole⟩ := broadcastDim_cases hm
      have hlast' : lastLength z' = m := by rw [lastLength, hshape]; rfl
      obtain ⟨M, hsum⟩ := ih hshape hps.2 h
      have hfirst := hsum.first
      rw [hlast'] at hfirst
      refine ⟨M, hsum.shape_eq, ?_, ?_, ?_, ?_⟩
      · rw [hlast]
        omega
      · rw [forall_mem_cons]
        exact ⟨by omega, hsum.rest⟩
      · obtain hw | ⟨q, hq, hw⟩ := hsum.whole
        · rw [hlast'] at hw
          subst hw
          obtain hw | hw := hwhole
          · exact Or.inl (hlast.trans hw)
          · exact Or.inr ⟨p, mem_cons_self, hw⟩
        · exact Or.inr ⟨q, mem_cons_of_mem _ hq, hw⟩
      · intro n hn c hc o ho
        have hlt : (if m = 1 then 0 else o) < m := by
          split <;> omega
        rw [hsum.read_eq n hn c hc o ho, hlast', hread n hn c hc _ hlt, hlast, map_cons, sum_cons, add_assoc]
        have hleft : (if l = 1 then 0 else if m = 1 then 0 else o) = if l = 1 then 0 else o := by
          split
          · rfl
          · rw [if_neg (by omega)]
        have hright : (if lastLength p = 1 then 0 else if m = 1 then 0 else o) = if lastLength p = 1 then 0 else o := by
          split
          · rfl
          · rw [if_neg (by omega)]
        rw [hleft, hright]
    · rw [hnone] at hacc'
      cases hacc'

theorem foldlM_exists (hacc : acc.shape = [batch, channels, l])
    (hps : ∀ p ∈ ps, p.shape = [batch, channels, lastLength p]) (hl : l = m ∨ l = 1)
    (hall : ∀ p ∈ ps, lastLength p = m ∨ lastLength p = 1) : ∃ z, ps.foldlM addArrays acc = some z := by
  induction ps generalizing acc l with
  | nil => exact ⟨acc, rfl⟩
  | cons p ps ih =>
    rw [forall_mem_cons] at hps hall
    obtain ⟨m', hm', z', hz', hshape, -⟩ | ⟨hnone, -⟩ := addArrays_spec hacc hps.1
    · have hcases := broadcastDim_cases hm'
      obtain ⟨z, hz⟩ := ih hshape hps.2 (by omega) hall.2
      refine ⟨z, ?_⟩
      rw [foldlM_cons, hz']
      exact hz
    · unfold actualBroadcastDim at hnone
      split_ifs at hnone
      omega

variable {t : Taps} {x y w : NDArray α} {cin cout len size : Nat}

theorem grid_tap (l : Nat) : grid tapAttributes [1] [l] = some ⟨[⟨1, 1, 1, 0, 0⟩], [l]⟩ := by
  have hsize : (Axis.outSize false ⟨1, 1, 1, 0, 0⟩ l) = l := by
    simp [Axis.outSize, Axis.room, Axis.extent]
  show some (Grid.mk [⟨1, 1, 1, 0, 0⟩] [Axis.outSize false ⟨1, 1, 1, 0, 0⟩ l]) = _
  rw [hsize]

theorem read_tap (ho : o < l) : (cells [⟨1, 1, 1, 0, 0⟩] [l] [o] [0]).read = some [o] := by
  have hpos : Axis.position ⟨1, 1, 1, 0, 0⟩ o 0 = o := by simp [Axis.position]
  rw [cells, Cell.read_cons, Axis.cell, hpos, if_pos (by omega)]
  rfl

theorem part_spec (hy : y.shape = [batch, cin, len]) (hw : w.shape = [cout, cin, t.taps]) (bias : Option (NDArray α))
    (j : Nat) : ∃ p, part t y w bias j = some p ∧
      p.shape = [batch, cout, sliceLength t len j] ∧
        ∀ n < batch, ∀ co < cout, ∀ o < sliceLength t len j, readAt p [n, co, o] =
          biasAt (if j = 0 then bias else none) co +
            ((List.range cin).map fun ci => readAt w [co, ci, j] * readAt y [n, ci, sliceStart t len j + o]).sum := by
  have hlen : y.shape.getD 2 0 = len := by rw [hy]; rfl
  have hy' : y.shape = [batch, cin] ++ len :: [] := hy
  have hslab : (slab 2 (sliceStart t len j) (sliceLength t len j) y).shape = [batch, cin, sliceLength t len j] :=
    shape_slab hy' rfl
  have hweight : (tapWeight w j).shape = [cout, cin, 1] := by
    show [w.shape.headD 0, w.shape.getD 1 0, 1] = _
    rw [hw]
    rfl
  have hops : Operands 1 batch [sliceLength t len j] [1] (slab 2 (sliceStart t len j) (sliceLength t len j) y)
      (tapWeight w j) := by
    refine ⟨?_, ?_⟩
    · rw [hslab, hweight, Nat.one_mul]
      rfl
    · rw [hweight, Nat.one_mul, Nat.div_one]
      rfl
  have hpart := conv_eq (if j = 0 then bias else none) hops (grid_tap _)
  refine ⟨_, (by rw [part, hlen]; exact hpart), ?_, ?_⟩
  · show _ :: _ :: [_] = _
    rw [hslab, hweight]
    rfl
  · intro n hn co hco o ho
    have hmem : [n, co, o] ∈ indices ((slab 2 (sliceStart t len j) (sliceLength t len j) y).shape.headD 0 ::
        (tapWeight w j).shape.headD 0 :: [sliceLength t len j]) := by
      rw [hslab, hweight]
      exact mem_three hn hco ho
    refine (readAt_ofFn _ hmem).trans ?_
    show biasAt _ co + _ = _
    congr 1
    have hrange : (tapWeight w j).shape.getD 1 0 = cin := by rw [hweight]; rfl
    rw [hrange]
    congr 1
    apply map_congr_left
    intro ci hci
    have hci' := mem_range.mp hci
    have hone : indices [1] = [[0]] := rfl
    rw [hone, map_singleton, sum_singleton]
    show readAt (tapWeight w j) (co :: ci :: [0]) * readOr _ n _ ((cells _ _ [o] [0]).read) = _
    rw [read_tap ho]
    have hchannel : co / ((tapWeight w j).shape.headD 0 / 1) * cin + ci = ci := by
      rw [hweight, Nat.div_one, headD_cons, Nat.div_eq_of_lt hco, Nat.zero_mul, Nat.zero_add]
    have hwj : readAt (tapWeight w j) [co, ci, 0] = readAt w [co, ci, j] := by
      have hmemw : [co, ci, 0] ∈ indices [w.shape.headD 0, w.shape.getD 1 0, 1] := by
        rw [hw]
        exact mem_three hco hci' Nat.one_pos
      exact readAt_ofFn _ hmemw
    have hread : readAt (slab 2 (sliceStart t len j) (sliceLength t len j) y) ([n, ci] ++ o :: []) =
        readAt y ([n, ci] ++ (o + sliceStart t len j) :: []) := by
      have hpre : [n, ci] ∈ indices [batch, cin] :=
        mem_indices_cons.mpr ⟨hn, mem_indices_cons.mpr ⟨hci', mem_singleton.mpr rfl⟩⟩
      exact readAt_slab hy' rfl hpre ho (mem_singleton.mpr rfl)
    rw [hwj]
    congr 1
    show readAt _ [n, co / ((tapWeight w j).shape.headD 0 / 1) * cin + ci, o] = _
    rw [hchannel, Nat.add_comm (sliceStart t len j) o]
    exact hread

variable {padBegin padEnd : Int} {β γ : Type} {R : β → γ → Prop} {cs : List γ} {attrs : Attributes} {g : Grid}

theorem exists_mapM {f : β → Option γ} {l : List β} (h : ∀ b ∈ l, ∃ c, f b = some c) :
    ∃ cs, l.mapM f = some cs ∧ List.Forall₂ (fun b c => f b = some c) l cs := by
  induction l with
  | nil => exact ⟨[], rfl, .nil⟩
  | cons b l ih =>
    rw [forall_mem_cons] at h
    obtain ⟨c, hc⟩ := h.1
    obtain ⟨cs, hcs, hall⟩ := ih h.2
    refine ⟨c :: cs, ?_, .cons hc hall⟩
    rw [mapM_cons, hc, hcs]
    rfl

theorem map_eq_of_forall₂ {δ : Type} {l : List β} (h : List.Forall₂ R l cs) {f : β → δ} {g : γ → δ}
    (hfg : ∀ b c, b ∈ l → R b c → g c = f b) : cs.map g = l.map f := by
  induction h with
  | nil => rfl
  | cons hfirst _ ih =>
    rw [map_cons, map_cons, hfg _ _ mem_cons_self hfirst,
      ih fun b c hb => hfg b c (mem_cons_of_mem _ hb)]

omit [Inhabited α] in
theorem sum_comm (l : List β) (l' : List γ) (f : β → γ → α) :
    (l.map fun b => (l'.map fun c => f b c).sum).sum = (l'.map fun c => (l.map fun b => f b c).sum).sum := by
  induction l with
  | nil => simp
  | cons b l ih =>
    simp only [map_cons, sum_cons, ih, sum_map_add]

theorem sum_bias (bias : Option (NDArray α)) (co : Nat) {taps : Nat} (htaps : 0 < taps) (f : Nat → α) :
    ((List.range taps).map fun j => biasAt (if j = 0 then bias else none) co + f j).sum =
      biasAt bias co + ((List.range taps).map f).sum := by
  rw [sum_map_add]
  congr 1
  rw [sum_indicator nodup_range (mem_range.mpr htaps)]
  · rfl
  · intro j hj
    rw [if_neg hj]
    rfl

theorem indices_single (n : Nat) : indices [n] = (List.range n).map fun i => [i] := by
  simp [indices, map_eq_flatMap]

def tapRead (t : Taps) (padBegin : Int) (size len : Nat) (os js : List Nat) : Option (List Nat) :=
  unpad [padBegin] [size]
    [sliceStart t len (js.headD 0) + if sliceLength t len (js.headD 0) = 1 then 0 else os.headD 0]

theorem run_spec (hx : Operands 1 batch [size] [t.taps] x w) (hpads : t.padPads = [0, 0, padBegin, 0, 0, padEnd])
    (hlen : len = ((size : Int) + padBegin + padEnd).toNat) (htaps : 0 < t.taps) (bias : Option (NDArray α)) :
    (∀ z, run t x w bias = some z → ∃ m, (∀ j < t.taps, sliceLength t len j = m ∨ sliceLength t len j = 1) ∧
      (∃ j < t.taps, sliceLength t len j = m) ∧
        z = convWith 1 [t.taps] [m] (tapRead t padBegin size len) x w bias) ∧
    (∀ m, (∀ j < t.taps, sliceLength t len j = m ∨ sliceLength t len j = 1) → ∃ z, run t x w bias = some z) := by
  have hbegins : [padBegin].length = [size].length := rfl
  have hends : [padEnd].length = [size].length := rfl
  obtain ⟨y, hy, hyshape, hyread⟩ := pad_spatial hx.x_shape hbegins hends 0
  have hyshape' : y.shape = [batch, w.shape.getD 1 0, len] := by
    rw [hyshape, Nat.one_mul, hlen]
    rfl
  obtain ⟨cout, cin, hw⟩ : ∃ cout cin, w.shape = [cout, cin, t.taps] := ⟨_, _, hx.w_shape⟩
  have hcin : w.shape.getD 1 0 = cin := by rw [hw]; rfl
  have hcout : w.shape.headD 0 = cout := by rw [hw]; rfl
  rw [hcin] at hyshape'
  have hparts : ∀ j ∈ List.range t.taps, ∃ p, part t y w bias j = some p := by
    intro j _
    obtain ⟨p, hp, -⟩ := part_spec hyshape' hw bias j
    exact ⟨p, hp⟩
  obtain ⟨ps, hps, hall⟩ := exists_mapM hparts
  have hrun : run t x w bias = sumAll ps := by
    rw [run, hpads]
    show (pad [0, 0, padBegin] [0, 0, padEnd] 0 x).bind _ = _
    rw [hy, bind_some, hps, bind_some]
  have hshapes : ∀ p ∈ ps, p.shape = [batch, cout, lastLength p] := by
    intro p hp
    obtain ⟨j, hj, hpart⟩ := Lib.Results.forall₂_exists_left hall hp
    obtain ⟨p', hp', hshape, -⟩ := part_spec hyshape' hw bias j
    rw [hpart] at hp'
    obtain rfl := Option.some.inj hp'
    rw [lastLength, hshape]
    rfl
  have hlengths : ps.map lastLength = (List.range t.taps).map (sliceLength t len) := by
    apply map_eq_of_forall₂ hall
    intro j p _ hpart
    obtain ⟨p', hp', hshape, -⟩ := part_spec hyshape' hw bias j
    rw [hpart] at hp'
    obtain rfl := Option.some.inj hp'
    rw [lastLength, hshape]
    rfl
  have hmem : ∀ l, l ∈ ps.map lastLength ↔ ∃ j < t.taps, sliceLength t len j = l := by
    intro l
    rw [hlengths]
    simp
  cases ps with
  | nil =>
    have := hall.length_eq
    rw [length_range, length_nil] at this
    omega
  | cons p ps =>
    have hfold : run t x w bias = ps.foldlM addArrays p := hrun
    rw [forall_mem_cons] at hshapes
    rw [hfold]
    refine ⟨?_, ?_⟩
    · intro z hz
      obtain ⟨m, hsum⟩ := summed_of_foldlM hshapes.1 hshapes.2 hz
      refine ⟨m, ?_, ?_, ?_⟩
      · intro j hj
        have hl := (hmem _).mpr ⟨j, hj, rfl⟩
        rw [map_cons, mem_cons] at hl
        obtain hl | hl := hl
        · rw [hl]
          exact hsum.first
        · obtain ⟨q, hq, hl⟩ := List.mem_map.mp hl
          rw [← hl]
          exact hsum.rest q hq
      · apply (hmem m).mp
        rw [map_cons, mem_cons]
        obtain hl | ⟨q, hq, hl⟩ := hsum.whole
        · exact Or.inl hl.symm
        · exact Or.inr (List.mem_map.mpr ⟨q, hq, hl⟩)
      · have hshape : (convWith 1 [t.taps] [m] (tapRead t padBegin size len) x w bias).shape = [batch, cout, m] := by
          show x.shape.headD 0 :: w.shape.headD 0 :: [m] = _
          rw [hx.x_shape, hcout]
          rfl
        apply ext_readAt (hsum.shape_eq.trans hshape.symm)
        intro idx hidx
        rw [hsum.shape_eq] at hidx
        obtain ⟨n, rest, rfl, hn, hrest⟩ := exists_of_mem_indices_cons hidx
        obtain ⟨co, rest, rfl, hco, hrest⟩ := exists_of_mem_indices_cons hrest
        obtain ⟨o, rest, rfl, ho, hrest⟩ := exists_of_mem_indices_cons hrest
        obtain rfl := mem_singleton.mp hrest
        have hleft : readAt z [n, co, o] =
            ((p :: ps).map fun q => readAt q [n, co, if lastLength q = 1 then 0 else o]).sum :=
          hsum.read_eq n hn co hco o ho
        have hterms : ((p :: ps).map fun q => readAt q [n, co, if lastLength q = 1 then 0 else o]) =
            (List.range t.taps).map fun j => biasAt (if j = 0 then bias else none) co + ((List.range cin).map fun ci =>
              readAt w [co, ci, j] * readOr x n ci (tapRead t padBegin size len [o] [j])).sum := by
          apply map_eq_of_forall₂ hall
          intro j q hj hpart
          obtain ⟨q', hq', hqshape, hread⟩ := part_spec hyshape' hw bias j
          rw [hpart] at hq'
          obtain rfl := Option.some.inj hq'
          have hlast : lastLength q = sliceLength t len j := by
            rw [lastLength, hqshape]
            rfl
          have hmax : sliceLength t len j = m ∨ sliceLength t len j = 1 := by
            have hl := (hmem _).mpr ⟨j, mem_range.mp hj, rfl⟩
            rw [map_cons, mem_cons] at hl
            obtain hl | hl := hl
            · rw [hl]
              exact hsum.first
            · obtain ⟨q, hq, hl⟩ := List.mem_map.mp hl
              rw [← hl]
              exact hsum.rest q hq
          rw [hlast]
          have hlt : (if sliceLength t len j = 1 then 0 else o) < sliceLength t len j := by
            split <;> omega
          rw [hread n hn co hco _ hlt]
          congr 2
          apply map_congr_left
          intro ci hci
          congr 1
          have hci' := mem_range.mp hci
          have hin : sliceStart t len j + (if sliceLength t len j = 1 then 0 else o) < len := by
            have hend : sliceStart t len j + sliceLength t len j ≤ len := by
              unfold sliceStart sliceLength
              omega
            omega
          have hq := hyread n hn ci (by rw [hcin, Nat.one_mul]; exact hci')
            [sliceStart t len j + if sliceLength t len j = 1 then 0 else o]
            (mem_indices_cons.mpr ⟨by rw [← hlen]; exact hin, mem_singleton.mpr rfl⟩)
          rw [hq]
          show _ = readOr x n ci (unpad [padBegin] [size] [sliceStart t len j + if sliceLength t len j = 1 then 0 else o])
          cases unpad [padBegin] [size] [sliceStart t len j + if sliceLength t len j = 1 then 0 else o] <;> rfl
        have hright : readAt (convWith 1 [t.taps] [m] (tapRead t padBegin size len) x w bias) [n, co, o] =
            biasAt bias co + ((List.range cin).map fun ci => ((List.range t.taps).map fun j =>
              readAt w [co, ci, j] * readOr x n ci (tapRead t padBegin size len [o] [j])).sum).sum := by
          have hmemIdx : [n, co, o] ∈ indices (x.shape.headD 0 :: w.shape.headD 0 :: [m]) := by
            rw [hx.x_shape, hcout]
            exact mem_three hn hco ho
          refine (readAt_ofFn _ hmemIdx).trans ?_
          show biasAt bias co + _ = _
          congr 1
          rw [hcin]
          congr 1
          apply map_congr_left
          intro ci hci
          rw [indices_single, List.map_map]
          congr 1
          apply map_congr_left
          intro j _
          show readAt w [co, ci, j] * readOr x n (co / (w.shape.headD 0 / 1) * cin + ci) (tapRead t padBegin size len [o] [j]) = _
          rw [hcout, Nat.div_one, Nat.div_eq_of_lt hco, Nat.zero_mul, Nat.zero_add]
        rw [hleft, hright, hterms, sum_bias bias co htaps, sum_comm]
    · intro m hm
      have hall' : ∀ q ∈ p :: ps, lastLength q = m ∨ lastLength q = 1 := by
        intro q hq
        obtain ⟨j, hj, hl⟩ := (hmem _).mp (List.mem_map_of_mem hq)
        rw [← hl]
        exact hm j hj
      rw [forall_mem_cons] at hall'
      exact foldlM_exists hshapes.1 hshapes.2 hall'.1 hall'.2

theorem tapRead_mem {os js q : List Nat} (h : tapRead t padBegin size len os js = some q) : q ∈ indices [size] := by
  have hb : [padBegin].length = [size].length := rfl
  have hread : unpad [padBegin] [size] [_] = some q := h
  exact unpad_mem hb (by rfl) hread

theorem tapsCorrect_iff [Nontrivial α] (hgrid : grid attrs [t.taps] [size] = some g) (hout : g.outSizes = [t.length])
    (hpads : t.padPads = [0, 0, padBegin, 0, 0, padEnd]) (hlen : len = ((size : Int) + padBegin + padEnd).toNat)
    (htaps : 0 < t.taps) :
    TapsCorrect α attrs t size ↔ SlicesAgree attrs t padBegin size len := by
  constructor
  · intro hcorrect
    have hruns : ∀ x w : NDArray α, Operands 1 1 [size] [t.taps] x w →
        (∀ j < t.taps, sliceLength t len j = t.length ∨ sliceLength t len j = 1) ∧
          (∃ j < t.taps, sliceLength t len j = t.length) ∧
            convWith 1 [t.taps] [t.length] (tapRead t padBegin size len) x w none =
              convWith 1 [t.taps] [t.length] (fun os js => (cells g.axes [size] os js).read) x w none := by
      intro x w hx
      have hz := hcorrect 1 x w none _ hx (conv_eq none hx hgrid)
      obtain ⟨m, hall, hwhole, hconv⟩ := (run_spec hx hpads hlen htaps none).1 _ hz
      rw [hout] at hconv
      have hshape := congrArg NDArray.shape hconv
      have hlists : x.shape.headD 0 :: w.shape.headD 0 :: [t.length] = x.shape.headD 0 :: w.shape.headD 0 :: [m] := hshape
      have hm : t.length = m := by simpa using hlists
      subst hm
      exact ⟨hall, hwhole, hconv.symm⟩
    obtain ⟨hall, hwhole, -⟩ := hruns _ _ (operands_unit Nat.one_pos [] [])
    have hreads := (convWith_inj Nat.one_pos (fun os _ js _ q hq => tapRead_mem hq)
      (fun os hos js hjs q hq => read_mem_of_grid hgrid (by rw [hout]; exact hos) hjs hq)
      fun x w hx => (hruns x w hx).2.2).2
    refine ⟨hall, hwhole, ?_⟩
    intro g' hg' o ho j hj
    rw [hgrid] at hg'
    obtain rfl := Option.some.inj hg'
    exact hreads [o] (by rw [indices_single]; exact List.mem_map_of_mem (mem_range.mpr ho)) [j]
      (by rw [indices_single]; exact List.mem_map_of_mem (mem_range.mpr hj))
  · intro hagree batch x w bias z hx hz
    rw [conv_eq bias hx hgrid, hout] at hz
    obtain ⟨z', hz'⟩ := (run_spec hx hpads hlen htaps bias).2 _ hagree.lengths
    obtain ⟨m, hall, ⟨j, hj, hm⟩, hconv⟩ := (run_spec hx hpads hlen htaps bias).1 _ hz'
    have hsame : m = t.length := by
      obtain ⟨j', hj', hm'⟩ := hagree.whole
      have h₁ := hagree.lengths j hj
      have h₂ := hall j' hj'
      omega
    rw [hz', hconv, ← hz]
    congr 1
    apply convWith_congr bias (by rw [hsame])
    intro os hos js hjs
    rw [indices_single] at hos hjs
    obtain ⟨o, ho, rfl⟩ := List.mem_map.mp hos
    obtain ⟨j, hj, rfl⟩ := List.mem_map.mp hjs
    rw [hsame] at ho
    exact hagree.reads g hgrid o (mem_range.mp ho) j (mem_range.mp hj)

theorem slicesAgree_of_notset (hmode : attrs.autoPad.getD .notset = .notset) (hceil : attrs.ceilMode = false)
    (hdil : attrs.dilations = some [t.dilation]) (hstrides : attrs.strides.getD [1] = [1])
    (hgrid : grid attrs [t.taps] [size] = some g) (hout : g.outSizes = [t.length]) (htaps : 0 < t.taps)
    (hlength : 0 < t.length) :
    SlicesAgree attrs t (pairPads attrs).1 size ((size : Int) + (pairPads attrs).1 + (pairPads attrs).2).toNat := by
  obtain ⟨p, q, hp, hq, hpair, haxes, hsize⟩ : ∃ p q : Int, 0 ≤ p ∧ 0 ≤ q ∧ pairPads attrs = (p, q) ∧
      g.axes = [⟨t.taps, 1, t.dilation, p, q⟩] ∧
        g.outSizes = [Axis.outSize false ⟨t.taps, 1, t.dilation, p, q⟩ size] := by
    unfold grid at hgrid
    simp only [length_cons, length_nil, hmode, hdil, getD_some, if_true] at hgrid
    split at hgrid
    · next hnonneg =>
      obtain ⟨axes, haxes, rfl⟩ := map_eq_some_iff.mp hgrid
      have hstrides' : attrs.strides.getD (List.replicate (0 + 1) 1) = [1] := hstrides
      rw [hstrides'] at haxes
      obtain ⟨-, hb, he, -⟩ := explicitAxes_spec haxes
      obtain ⟨p, q, hpads⟩ : ∃ p q : Int, attrs.pads.getD (List.replicate (2 * (0 + 1)) 0) = [p, q] := by
        generalize attrs.pads.getD (List.replicate (2 * (0 + 1)) 0) = pads at hb he
        match pads with
        | [] => simp at hb
        | [_] => simp at he
        | [p, q] => exact ⟨p, q, rfl⟩
        | _ :: _ :: _ :: _ => simp at he
      rw [hpads] at haxes hnonneg
      have hpair : pairPads attrs = (p, q) := by
        unfold pairPads
        cases hattr : attrs.pads with
        | none =>
          rw [hattr] at hpads
          cases hpads
          rfl
        | some l =>
          rw [hattr, getD_some] at hpads
          rw [hpads]
      cases haxes
      rw [hceil]
      exact ⟨p, q, hnonneg p (by simp), hnonneg q (by simp), hpair, rfl, rfl⟩
    · cases hgrid
  have hl : t.length = Axis.outSize false ⟨t.taps, 1, t.dilation, p, q⟩ size := by
    rw [hout] at hsize
    simpa using hsize
  have hextent : ((t.taps : Int) - 1) * t.dilation = ((t.taps - 1) * t.dilation : Nat) := by
    rw [Nat.cast_mul, Nat.cast_sub htaps, Nat.cast_one]
  have hroom : (t.length : Int) = size + p + q - ((t.taps - 1) * t.dilation : Nat) := by
    have hdef : Axis.outSize false ⟨t.taps, 1, t.dilation, p, q⟩ size =
        (((size : Int) + p + q - (((t.taps : Int) - 1) * t.dilation + 1)) / (1 : Nat) + 1).toNat := rfl
    rw [hdef, hextent, Nat.cast_one, Int.ediv_one] at hl
    omega
  rw [hpair]
  have hend : ∀ j < t.taps, j * t.dilation ≤ (t.taps - 1) * t.dilation :=
    fun j hj => Nat.mul_le_mul_right _ (by omega)
  have hfull : ∀ j < t.taps, sliceLength t ((size : Int) + p + q).toNat j = t.length := by
    intro j hj
    have := hend j hj
    unfold sliceLength
    omega
  refine ⟨fun j hj => Or.inl (hfull j hj), ⟨0, htaps, hfull 0 htaps⟩, ?_⟩
  intro g' hg' o ho j hj
  rw [hgrid] at hg'
  obtain rfl := Option.some.inj hg'
  have hstart : sliceStart t ((size : Int) + p + q).toNat j + (if sliceLength t ((size : Int) + p + q).toNat j = 1 then 0 else o) =
      j * t.dilation + o := by
    have := hend j hj
    rw [hfull j hj]
    unfold sliceStart
    split <;> omega
  have hpos : Axis.position ⟨t.taps, 1, t.dilation, p, q⟩ o j = ((j * t.dilation + o : Nat) : Int) - p := by
    show (o : Int) * (1 : Nat) + (j : Int) * t.dilation - p = _
    rw [Nat.cast_add, Nat.cast_mul]
    omega
  rw [haxes, cells, Cell.read_cons, Axis.cell, hpos, hstart, unpad]
  split
  · rfl
  · rw [read_absent]
    rfl

theorem dilatedConvToTaps_eq_some {node : DilatedConv} {t : Taps} (h : dilatedConvToTaps node = some t) :
    node.attrs.dilations = some [t.dilation] ∧ node.attrs.strides.getD [1] = [1] ∧ 0 < t.length ∧
      t.padPads = [0, 0, (pairPads node.attrs).1, 0, 0, (pairPads node.attrs).2] := by
  unfold dilatedConvToTaps at h
  split at h
  · next hdil _ _ =>
    split at h
    · next hguard =>
      obtain ⟨-, -, -, hstrides, -, hlength⟩ := hguard
      obtain rfl := Option.some.inj h
      refine ⟨hdil, hstrides, ?_, rfl⟩
      show 0 < Int.toNat _
      omega
    · cases h
  · cases h

/-- Each of the three rewrites takes the pads for the ones that the convolution uses; the first one also keeps the
rounding of the output size. -/
theorem legalisers_correct_iff [Nontrivial α] {node : WindowNode} {attrs' : Attributes} {kernel sizes : List Nat}
    (hfire : explicitAutoPad node = some attrs') (hkernel : kernelOf node = some (kernel.map Nat.cast))
    (hsizes : staticSpatialShape node.xSizes kernel.length = some (sizes.map Nat.cast)) (hlen : sizes.length = kernel.length)
    (hn : ∀ n ∈ sizes, 0 < n) (hk : ∀ k ∈ kernel, 0 < k)
    (hs : ∀ s ∈ node.attrs.strides.getD (List.replicate kernel.length 1), 0 < s) {kind : Kind} {attrs : Attributes}
    {pads : List Int} {h : Hoisted} {group : Nat} {kernel' sizes' : List Nat} {g : Grid}
    (hfire' : explicitConvPadding kind attrs = some h) (hpads : attrs.pads = some pads) (hceil : attrs.ceilMode = false)
    (hgroup : 0 < group) (hgrid : grid attrs kernel' sizes' = some g) {dilated : DilatedConv} {t : Taps} {size : Nat}
    {g' : Grid} (hfire'' : dilatedConvToTaps dilated = some t) (hceil' : dilated.attrs.ceilMode = false)
    (hgrid' : grid dilated.attrs [t.taps] [size] = some g') (hout : g'.outSizes = [t.length]) (htaps : 0 < t.taps) :
    (ExplicitCorrect node.attrs attrs' kernel sizes ↔ (node.attrs.ceilMode = true → node.attrs.autoPad = some .valid →
      ∀ g, grid node.attrs kernel sizes = some g → ∀ q ∈ sizes.zip g.axes, RoundsAlike q.1 q.2)) ∧
    (HoistCorrect α attrs h group kernel' sizes' ↔ attrs.autoPad.getD .notset = .notset ∨
      SameTaps attrs { attrs with pads := some (List.replicate pads.length 0) } (pads.take (pads.length / 2))
        (pads.drop (pads.length / 2)) kernel' sizes') ∧
    (TapsCorrect α dilated.attrs t size ↔ dilated.attrs.autoPad.getD .notset = .notset ∨
      SlicesAgree dilated.attrs t (pairPads dilated.attrs).1 size
        ((size : Int) + (pairPads dilated.attrs).1 + (pairPads dilated.attrs).2).toNat) := by
  refine ⟨explicitAutoPad_iff hfire hkernel hsizes hlen hn hk hs,
    explicitConvPadding_iff hfire' hpads hceil hgroup hgrid, ?_⟩
  obtain ⟨hdil, hstrides, hlength, hpadPads⟩ := dilatedConvToTaps_eq_some hfire''
  rw [tapsCorrect_iff hgrid' hout hpadPads rfl htaps]
  constructor
  · exact Or.inr
  · rintro (hmode | hagree)
    · exact slicesAgree_of_notset hmode hceil' hdil hstrides hgrid' hout htaps hlength
    · exact hagree

def poolAttributes (mode : AutoPad) (ceil : Bool) : Attributes := ⟨some mode, some [3], none, some [2], none, ceil⟩

def poolNode (mode : AutoPad) (ceil : Bool) : WindowNode :=
  ⟨.maxPool, poolAttributes mode ceil, some [.unknown, .unknown, .size 4], none⟩

def explicitAttributes (p q : Int) (ceil : Bool) : Attributes :=
  ⟨some .notset, some [3], some [p, q], some [2], none, ceil⟩

def paddedConv (mode : AutoPad) : Attributes := ⟨some mode, none, some [1, 0], none, none, false⟩

def hoisted (mode : AutoPad) : Hoisted := ⟨[0, 0, 1, 0, 0, 0], ⟨some mode, none, some [0, 0], none, none, false⟩⟩

def dilatedConv (mode : AutoPad) (length : Int) : DilatedConv :=
  ⟨.conv, ⟨some mode, none, none, none, some [2], false⟩, none, 2, some [1, 1, 2], some [.unknown, .unknown, .size length]⟩

def twoTaps (length : Nat) : Taps := ⟨[0, 0, 0, 0, 0, 0], 2, 2, length⟩

/-- A rounded up output, a convolution whose mode overrides its pads, and a dilated one that keeps its size. -/
theorem legalisers_go_wrong :
    (explicitAutoPad (poolNode .valid true) = some (explicitAttributes 0 0 true) ∧
      ¬ ExplicitCorrect (poolAttributes .valid true) (explicitAttributes 0 0 true) [3] [4]) ∧
    (explicitConvPadding .conv (paddedConv .valid) = some (hoisted .valid) ∧
      ¬ HoistCorrect Int (paddedConv .valid) (hoisted .valid) 1 [1] [3]) ∧
    (dilatedConvToTaps (dilatedConv .sameUpper 4) = some (twoTaps 4) ∧
      ¬ TapsCorrect Int (dilatedConv .sameUpper 4).attrs (twoTaps 4) 4) := by
  refine ⟨⟨by decide, ?_⟩, ⟨by decide, ?_⟩, ⟨by decide, ?_⟩⟩
  · rintro ⟨-, g, hg, hg'⟩
    have hsame : grid (poolAttributes .valid true) [3] [4] = grid (explicitAttributes 0 0 true) [3] [4] := hg.trans hg'.symm
    revert hsame
    decide
  · intro hcorrect
    have hgrid : grid (paddedConv .valid) [1] [3] = some ⟨[⟨1, 1, 1, 0, 0⟩], [3]⟩ := by decide
    have hfire : explicitConvPadding .conv (paddedConv .valid) = some (hoisted .valid) := by decide
    have hpads : (paddedConv .valid).pads = some [1, 0] := rfl
    obtain hmode | htaps := (explicitConvPadding_iff hfire hpads rfl Nat.one_pos hgrid).mp hcorrect
    · cases hmode
    · obtain ⟨g, g', hg, hg', hout, -⟩ := htaps.grids
      have h₁ : (grid (paddedConv .valid) [1] [3]).map Grid.outSizes = some g.outSizes := by rw [hg]; rfl
      have h₂ : (grid ⟨some .valid, none, some [0, 0], none, none, false⟩ [1] [4]).map Grid.outSizes = some g'.outSizes :=
        congrArg (Option.map Grid.outSizes) hg'
      rw [hout, ← h₁] at h₂
      revert h₂
      decide
  · intro hcorrect
    have hgrid : grid (dilatedConv .sameUpper 4).attrs [2] [4] = some ⟨[⟨2, 1, 2, 1, 1⟩], [4]⟩ := by decide
    have hpads : (twoTaps 4).padPads = [0, 0, 0, 0, 0, 0] := rfl
    have hagree := (tapsCorrect_iff hgrid rfl hpads (show 4 = ((4 : Nat) + (0 : Int) + 0).toNat from rfl) (by decide)).mp
      hcorrect
    have := hagree.lengths 1 (by decide)
    revert this
    decide

theorem legalisers_instance :
    (ExplicitCorrect (poolAttributes .sameUpper true) (explicitAttributes 0 1 true) [3] [4] ↔
      ((poolAttributes .sameUpper true).ceilMode = true → (poolAttributes .sameUpper true).autoPad = some .valid →
        ∀ g, grid (poolAttributes .sameUpper true) [3] [4] = some g → ∀ q ∈ [4].zip g.axes, RoundsAlike q.1 q.2)) ∧
    (HoistCorrect Int (paddedConv .notset) (hoisted .notset) 1 [1] [3] ↔
      (paddedConv .notset).autoPad.getD .notset = .notset ∨
        SameTaps (paddedConv .notset) { paddedConv .notset with pads := some (List.replicate 2 0) } [1] [0] [1] [3]) ∧
    (TapsCorrect Int (dilatedConv .notset 2).attrs (twoTaps 2) 4 ↔
      (dilatedConv .notset 2).attrs.autoPad.getD .notset = .notset ∨
        SlicesAgree (dilatedConv .notset 2).attrs (twoTaps 2) 0 4 4) := by
  have hfire : explicitAutoPad (poolNode .sameUpper true) = some (explicitAttributes 0 1 true) := by decide
  have hkernel : kernelOf (poolNode .sameUpper true) = some (([3] : List Nat).map Nat.cast) := rfl
  have hsizes : staticSpatialShape (poolNode .sameUpper true).xSizes 1 = some (([4] : List Nat).map Nat.cast) := rfl
  have hfire' : explicitConvPadding .conv (paddedConv .notset) = some (hoisted .notset) := by decide
  have hpads : (paddedConv .notset).pads = some [1, 0] := rfl
  have hgrid : grid (paddedConv .notset) [1] [3] = some ⟨[⟨1, 1, 1, 1, 0⟩], [4]⟩ := by decide
  have hfire'' : dilatedConvToTaps (dilatedConv .notset 2) = some (twoTaps 2) := by decide
  have hgrid' : grid (dilatedConv .notset 2).attrs [2] [4] = some ⟨[⟨2, 1, 2, 0, 0⟩], [2]⟩ := by decide
  exact legalisers_correct_iff hfire hkernel hsizes rfl (by decide) (by decide) (by decide) hfire' hpads rfl Nat.one_pos
    hgrid hfire'' rfl hgrid' rfl (by decide)

end Onnxsim.Passes.Taps
