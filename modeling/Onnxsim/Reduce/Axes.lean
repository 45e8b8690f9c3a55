import Onnxsim.Lib.Reductions
import Onnxsim.Overflow.Operators

namespace Onnxsim.Reduce.Axes

open List Lib.Reductions Overflow.Arrays

variable {V : Type}

/-- The shape that is left when the marked axes are reduced. -/
def reducedShape (keep : Bool) : List Nat → List Bool → List Nat
  | [], _ => []
  | n :: shape, [] => n :: shape
  | _ :: shape, true :: mask => if keep then 1 :: reducedShape keep shape mask else reducedShape keep shape mask
  | n :: shape, false :: mask => n :: reducedShape keep shape mask

/-- The place in the result that the element at an index goes to. -/
def key (keep : Bool) : List Bool → List Nat → List Nat
  | _, [] => []
  | [], i :: idx => i :: idx
  | true :: mask, _ :: idx => if keep then 0 :: key keep mask idx else key keep mask idx
  | false :: mask, i :: idx => i :: key keep mask idx

def entries (x : NDArray V) : List (List Nat × V) := (indices x.shape).zip x.data

/-- Each element of the result is made of the elements that go to its place, in their order. -/
def reduceWith (f : List V → V) (keep : Bool) (mask : List Bool) (x : NDArray V) : NDArray V :=
  NDArray.ofFn (reducedShape keep x.shape mask) fun j =>
    f (((entries x).filter fun e => key keep mask e.1 = j).map Prod.snd)

/-- Each element of the result reduces the elements that go to its place. -/
def reduce (R : Reduction V) (keep : Bool) (mask : List Bool) (x : NDArray V) : NDArray V :=
  NDArray.ofFn (reducedShape keep x.shape mask) fun j =>
    R.run (((entries x).filter fun e => key keep mask e.1 = j).map Prod.snd)

def union : List Bool → List Bool → List Bool
  | a :: maskA, b :: maskB => (a || b) :: union maskA maskB
  | _, _ => []

/-- The second mask marks axes of what the first one leaves. -/
def overlay : List Bool → List Bool → List Bool
  | [], maskB => maskB
  | true :: maskA, maskB => true :: overlay maskA maskB
  | false :: maskA, [] => false :: overlay maskA []
  | false :: maskA, b :: maskB => b :: overlay maskA maskB

variable {idx j : List Nat} {x : NDArray V} {keep : Bool}

@[simp]
theorem key_nil (mask : List Bool) : key keep mask [] = [] := by
  cases mask with
  | nil => rfl
  | cons b mask => cases b <;> rfl

@[simp]
theorem key_unmarked (idx : List Nat) : key keep [] idx = idx := by
  cases idx <;> rfl

@[simp]
theorem reducedShape_nil (mask : List Bool) : reducedShape keep [] mask = [] := by
  cases mask <;> rfl

@[simp]
theorem reducedShape_unmarked (shape : List Nat) : reducedShape keep shape [] = shape := by
  cases shape <;> rfl

variable {shape : List Nat}

theorem key_mem (mask : List Bool) (h : idx ∈ indices shape) :
    key keep mask idx ∈ indices (reducedShape keep shape mask) := by
  induction shape generalizing idx mask with
  | nil =>
    cases mem_singleton.mp h
    simp [indices]
  | cons n shape ih =>
    obtain ⟨i, rest, rfl, hi, hrest⟩ := exists_of_mem_indices_cons h
    cases mask with
    | nil => exact h
    | cons b mask =>
      cases b with
      | false => exact mem_indices_cons.mpr ⟨hi, ih mask hrest⟩
      | true =>
        cases keep with
        | false => exact ih mask hrest
        | true => exact mem_indices_cons.mpr ⟨Nat.one_pos, ih mask hrest⟩

def groupSize : List Nat → List Bool → Nat
  | [], _ => 1
  | _ :: _, [] => 1
  | n :: shape, true :: mask => n * groupSize shape mask
  | _ :: shape, false :: mask => groupSize shape mask

theorem countP_indices_cons (n : Nat) (shape : List Nat) (p : List Nat → Bool) :
    (indices (n :: shape)).countP p =
      ((List.range n).map fun i => (indices shape).countP fun idx => p (i :: idx)).sum := by
  rw [indices, countP_flatMap]
  congr 1
  apply map_congr_left
  intro i hi
  rw [Function.comp_apply, countP_map]
  rfl

theorem sum_range_single {n k c : Nat} (f : Nat → Nat) (hk : k < n) (hself : f k = c)
    (hother : ∀ i, i ≠ k → f i = 0) : ((List.range n).map f).sum = c := by
  rw [sum_map_eq_nsmul_single k f fun i hi _ => hother i hi, count_eq_one_of_mem nodup_range (mem_range.mpr hk), hself,
    nsmul_eq_mul, Nat.cast_one, Nat.one_mul]

theorem countP_eq_self (h : j ∈ indices shape) : (indices shape).countP (fun idx => decide (idx = j)) = 1 := by
  have hcount := count_eq_one_of_mem (nodup_indices shape) h
  rw [← hcount, List.count]
  apply countP_congr
  intro idx hidx
  simp

theorem countP_key (mask : List Bool) (h : j ∈ indices (reducedShape keep shape mask)) :
    (indices shape).countP (fun idx => decide (key keep mask idx = j)) = groupSize shape mask := by
  induction shape generalizing j mask with
  | nil =>
    rw [reducedShape_nil] at h
    cases mem_singleton.mp h
    simp [indices, groupSize]
  | cons n shape ih =>
    cases mask with
    | nil =>
      simp only [key_unmarked]
      exact countP_eq_self h
    | cons b mask =>
      rw [countP_indices_cons]
      cases b with
      | false =>
        obtain ⟨k, rest, rfl, hk, hrest⟩ := exists_of_mem_indices_cons h
        apply sum_range_single _ hk
        · have hsame := ih mask hrest
          rw [groupSize, ← hsame]
          apply countP_congr
          intro idx hidx
          simp [key]
        · intro i hi
          apply countP_eq_zero.mpr
          intro idx hidx
          simp [key, hi]
      | true =>
        have hinner : ∃ rest ∈ indices (reducedShape keep shape mask),
            ∀ i idx, key keep (true :: mask) (i :: idx) = j ↔ key keep mask idx = rest := by
          cases keep with
          | false => exact ⟨j, h, fun i idx => Iff.rfl⟩
          | true =>
            obtain ⟨k, rest, rfl, hk, hrest⟩ := exists_of_mem_indices_cons h
            obtain rfl : k = 0 := by omega
            exact ⟨rest, hrest, fun i idx => by simp [key]⟩
        obtain ⟨rest, hrest, hiff⟩ := hinner
        simp only [hiff, ih mask hrest]
        simp [groupSize]

theorem entries_map_fst (x : NDArray V) : (entries x).map Prod.fst = indices x.shape := by
  apply map_fst_zip
  rw [length_indices, x.length_data]

theorem entries_map_snd (x : NDArray V) : (entries x).map Prod.snd = x.data := by
  apply map_snd_zip
  rw [length_indices, x.length_data]

theorem length_group (mask : List Bool) (h : j ∈ indices (reducedShape keep x.shape mask)) :
    ((entries x).filter fun e => key keep mask e.1 = j).length = groupSize x.shape mask := by
  rw [← countP_eq_length_filter, ← countP_key mask h, ← entries_map_fst x, countP_map]
  rfl

theorem fst_mem {e : List Nat × V} (h : e ∈ entries x) : e.1 ∈ indices x.shape := by
  rw [← entries_map_fst x]
  exact List.mem_map_of_mem h

variable (R : Reduction V) {keep' : Bool} {mask mask' : List Bool}

theorem ofFn_congr {s s' : List Nat} {f f' : List Nat → V} (hs : s = s') (hf : ∀ idx ∈ indices s, f idx = f' idx) :
    NDArray.ofFn s f = NDArray.ofFn s' f' := by
  subst hs
  have hdata : (indices s).map f = (indices s).map f' := map_congr_left hf
  simp only [NDArray.ofFn, hdata]

theorem ext {y : NDArray V} (hs : x.shape = y.shape) (hd : x.data = y.data) : x = y := by
  obtain ⟨shape, data, hlen⟩ := x
  obtain ⟨shape', data', hlen'⟩ := y
  subst hs
  subst hd
  rfl

theorem entries_ofFn (s : List Nat) (f : List Nat → V) :
    entries (NDArray.ofFn s f) = (indices s).map fun j => (j, f j) := by
  rw [entries, NDArray.ofFn, zip_map_right]
  induction indices s with
  | nil => rfl
  | cons j js ih => simpa using ih

theorem reduce_reduce {keep'' : Bool} {mask'' : List Bool} (x : NDArray V)
    (hshape : reducedShape keep' (reducedShape keep x.shape mask) mask' = reducedShape keep'' x.shape mask'')
    (hkey : ∀ idx ∈ indices x.shape, key keep' mask' (key keep mask idx) = key keep'' mask'' idx) :
    reduce R keep' mask' (reduce R keep mask x) = reduce R keep'' mask'' x := by
  apply ofFn_congr hshape
  intro k hk
  rw [reduce, entries_ofFn, List.filter_map, List.map_map]
  have hgroups := R.run_groups (nodup_indices (reducedShape keep x.shape mask)) (entries x)
    (fun e => key keep mask e.1) Prod.snd (fun j => decide (key keep' mask' j = k))
    (fun e he => key_mem mask (fst_mem he)) (groupSize x.shape mask) (fun j hj => length_group mask hj)
  have hsame : ((entries x).filter fun e => decide (key keep' mask' (key keep mask e.1) = k)) =
      (entries x).filter fun e => decide (key keep'' mask'' e.1 = k) := by
    apply filter_congr
    intro e he
    rw [hkey e.1 (fst_mem he)]
  rw [hsame] at hgroups
  exact hgroups

theorem run_group_self (ks : List (List Nat)) (vs : List V) (hnodup : ks.Nodup) (hlen : ks.length = vs.length) :
    (ks.map fun j => R.run (((ks.zip vs).filter fun e => e.1 = j).map Prod.snd)) = vs := by
  have hgroup : ∀ j v, (j, v) ∈ ks.zip vs → ((ks.zip vs).filter fun e => e.1 = j) = [(j, v)] := by
    induction ks generalizing vs with
    | nil => simp
    | cons k ks ih =>
      cases vs with
      | nil => simp
      | cons w vs =>
        obtain ⟨hfresh, hnodup⟩ := nodup_cons.mp hnodup
        intro j v hmem
        rw [zip_cons_cons] at hmem ⊢
        cases mem_cons.mp hmem with
        | inl heq =>
          obtain ⟨rfl, rfl⟩ := Prod.mk.inj heq
          rw [filter_cons_of_pos (by simp)]
          congr 1
          apply filter_eq_nil_iff.mpr
          intro e he hej
          simp only [decide_eq_true_eq] at hej
          exact hfresh (hej ▸ (of_mem_zip he).1)
        | inr hmem =>
          have hne : k ≠ j := fun h => hfresh (h ▸ (of_mem_zip hmem).1)
          rw [filter_cons_of_neg (by simp [hne])]
          exact ih vs hnodup (Nat.succ.inj hlen) j v hmem
  apply ext_getElem
  · rw [length_map, hlen]
  · intro i hi hi'
    rw [length_map] at hi
    have hmem : (ks[i], vs[i]) ∈ ks.zip vs := by
      have hzip : i < (ks.zip vs).length := by
        rw [length_zip]
        omega
      have hget := getElem_mem hzip
      rwa [getElem_zip] at hget
    rw [getElem_map, hgroup _ _ hmem, map_singleton, R.singleton]

theorem reduce_self (x : NDArray V) (hshape : reducedShape keep x.shape mask = x.shape)
    (hkey : ∀ idx ∈ indices x.shape, key keep mask idx = idx) : reduce R keep mask x = x := by
  apply ext hshape
  have hdata := run_group_self R (indices x.shape) x.data (nodup_indices x.shape)
    (by rw [length_indices, x.length_data])
  refine Eq.trans ?_ hdata
  rw [reduce, NDArray.ofFn, hshape]
  apply map_congr_left
  intro j hj
  have hsame : ((entries x).filter fun e => decide (key keep mask e.1 = j)) =
      (entries x).filter fun e => decide (e.1 = j) := by
    apply filter_congr
    intro e he
    rw [hkey e.1 (fst_mem he)]
  rw [hsame]
  rfl

theorem run_data_reduce (x : NDArray V) : R.run (reduce R keep mask x).data = R.run x.data := by
  have hgroups := R.run_groups (nodup_indices (reducedShape keep x.shape mask)) (entries x)
    (fun e => key keep mask e.1) Prod.snd (fun _ => true)
    (fun e he => key_mem mask (fst_mem he)) (groupSize x.shape mask) (fun j hj => length_group mask hj)
  rw [filter_true, filter_true, entries_map_snd] at hgroups
  exact hgroups

theorem data_of_single (h : x.shape.prod = 1) : x.data = [R.run x.data] := by
  have hlen := x.length_data
  rw [h] at hlen
  obtain ⟨v, hv⟩ := length_eq_one_iff.mp hlen
  rw [hv, R.singleton]

theorem key_toggle {shape : List Nat} (hidx : idx ∈ indices shape) (hj : j ∈ indices (reducedShape true shape mask)) :
    key true mask idx = j ↔ key false mask idx = key false mask j := by
  induction shape generalizing idx j mask with
  | nil =>
    rw [reducedShape_nil] at hj
    cases mem_singleton.mp hidx
    cases mem_singleton.mp hj
    simp
  | cons n shape ih =>
    obtain ⟨i, rest, rfl, hi, hrest⟩ := exists_of_mem_indices_cons hidx
    cases mask with
    | nil => simp
    | cons b mask =>
      cases b with
      | false =>
        obtain ⟨k, rest', rfl, hk, hrest'⟩ := exists_of_mem_indices_cons hj
        have hiff := ih hrest hrest'
        simp [key, hiff]
      | true =>
        obtain ⟨k, rest', rfl, hk, hrest'⟩ := exists_of_mem_indices_cons hj
        have hiff := ih hrest hrest'
        have hzero : 0 = k := by omega
        simp [key, hiff, hzero]

theorem map_key_indices (shape : List Nat) (mask : List Bool) :
    (indices (reducedShape true shape mask)).map (key false mask) = indices (reducedShape false shape mask) := by
  induction shape generalizing mask with
  | nil => simp [indices]
  | cons n shape ih =>
    cases mask with
    | nil =>
      have hkey : key false [] = id := funext key_unmarked
      rw [hkey, List.map_id, reducedShape_unmarked, reducedShape_unmarked]
    | cons b mask =>
      cases b with
      | false =>
        rw [reducedShape, reducedShape, indices, indices, map_flatMap]
        apply flatMap_congr
        intro i hi
        rw [← ih mask, List.map_map, List.map_map]
        rfl
      | true =>
        have hdrop : reducedShape false (n :: shape) (true :: mask) = reducedShape false shape mask := rfl
        have hkeep : reducedShape true (n :: shape) (true :: mask) = 1 :: reducedShape true shape mask := rfl
        rw [hdrop, hkeep, ← ih mask, indices, range_one, flatMap_singleton, List.map_map]
        rfl

theorem reduceWith_toggle (f : List V → V) (x : NDArray V) :
    (reduceWith f true mask x).data = (reduceWith f false mask x).data := by
  have hindices := map_key_indices x.shape mask
  simp only [reduceWith, NDArray.ofFn]
  rw [← hindices, List.map_map]
  apply map_congr_left
  intro j hj
  have hsame : ((entries x).filter fun e => decide (key true mask e.1 = j)) =
      (entries x).filter fun e => decide (key false mask e.1 = key false mask j) := by
    apply filter_congr
    intro e he
    rw [decide_eq_decide]
    exact key_toggle (fst_mem he) hj
  rw [hsame]
  rfl

theorem reduce_toggle (x : NDArray V) : (reduce R true mask x).data = (reduce R false mask x).data :=
  reduceWith_toggle R.run x

theorem reduce_data (keep : Bool) (x : NDArray V) : (reduce R keep mask x).data = (reduce R (!keep) mask x).data := by
  cases keep with
  | false => exact (reduce_toggle R x).symm
  | true => exact reduce_toggle R x

variable {maskA maskB : List Bool}

theorem keep_keep (hlen : maskA.length = maskB.length) (idx : List Nat) :
    key true maskB (key true maskA idx) = key true (union maskA maskB) idx := by
  induction maskA, maskB, hlen using pair_induct generalizing idx with
  | nil => cases idx <;> rfl
  | cons a b maskA maskB _ ih =>
    cases idx with
    | nil => rfl
    | cons i idx => cases a <;> cases b <;> simp [key, union, ← ih idx]

theorem shape_keep_keep (hlen : maskA.length = maskB.length) (shape : List Nat) :
    reducedShape true (reducedShape true shape maskA) maskB = reducedShape true shape (union maskA maskB) := by
  induction maskA, maskB, hlen using pair_induct generalizing shape with
  | nil => cases shape <;> rfl
  | cons a b maskA maskB _ ih =>
    cases shape with
    | nil => rfl
    | cons n shape => cases a <;> cases b <;> simp [reducedShape, union, ← ih shape]

theorem drop_drop (maskA maskB : List Bool) (idx : List Nat) :
    key false maskB (key false maskA idx) = key false (overlay maskA maskB) idx := by
  fun_induction overlay maskA maskB generalizing idx with
  | case1 maskB => rw [key_unmarked]
  | case2 maskA maskB ih =>
    cases idx with
    | nil => simp
    | cons i idx => exact ih idx
  | case3 maskA ih =>
    cases idx with
    | nil => simp
    | cons i idx =>
      have hrest := ih idx
      rw [key_unmarked] at hrest
      simp [key, hrest]
  | case4 maskA b maskB ih =>
    cases idx with
    | nil => simp
    | cons i idx => cases b <;> simp [key, ih idx]

theorem reducedShape_drop (shape : List Nat) (mask : List Bool) : reducedShape false shape mask = key false mask shape := by
  induction shape generalizing mask with
  | nil => simp
  | cons n shape ih =>
    cases mask with
    | nil => rfl
    | cons b mask => cases b <;> simp [reducedShape, key, ih]

theorem shape_drop_drop (maskA maskB : List Bool) (shape : List Nat) :
    reducedShape false (reducedShape false shape maskA) maskB = reducedShape false shape (overlay maskA maskB) := by
  simp only [reducedShape_drop, drop_drop]

/-- Every axis that the first mask marks is marked by the second. -/
def Within (maskA maskB : List Bool) : Prop := ∀ i : Nat, maskA[i]? = some true → maskB[i]? = some true

theorem Within.tail {a b : Bool} (h : Within (a :: maskA) (b :: maskB)) : Within maskA maskB := fun i hi => h (i + 1) hi

theorem keep_drop (hlen : maskA.length = maskB.length) (h : Within maskA maskB) (idx : List Nat) :
    key false maskB (key true maskA idx) = key false maskB idx := by
  induction maskA, maskB, hlen using pair_induct generalizing idx with
  | nil => simp
  | cons a b maskA maskB _ ih =>
    cases idx with
    | nil => simp
    | cons i idx =>
      cases a with
      | false => cases b <;> simp [key, ih h.tail]
      | true =>
        have hb : b = true := by simpa using h 0 rfl
        simp [key, hb, ih h.tail]

theorem shape_keep_drop (hlen : maskA.length = maskB.length) (h : Within maskA maskB) (shape : List Nat) :
    reducedShape false (reducedShape true shape maskA) maskB = reducedShape false shape maskB := by
  induction maskA, maskB, hlen using pair_induct generalizing shape with
  | nil => simp
  | cons a b maskA maskB _ ih =>
    cases shape with
    | nil => simp
    | cons n shape =>
      cases a with
      | false => cases b <;> simp [reducedShape, ih h.tail]
      | true =>
        have hb : b = true := by simpa using h 0 rfl
        simp [reducedShape, hb, ih h.tail]

theorem union_of_within (hlen : maskA.length = maskB.length) (h : Within maskA maskB) : union maskA maskB = maskB := by
  induction maskA, maskB, hlen using pair_induct with
  | nil => rfl
  | cons a b maskA maskB _ ih =>
    rw [union, ih h.tail]
    cases a with
    | false => rfl
    | true =>
      have hb : b = true := by simpa using h 0 rfl
      rw [hb]
      rfl

theorem length_keep (hlen : maskA.length = shape.length) : (reducedShape true shape maskA).length = shape.length := by
  induction maskA, shape, hlen using pair_induct with
  | nil => rfl
  | cons a n maskA shape _ ih => cases a <;> simp [reducedShape, ih]

theorem length_drop (hlen : maskA.length = shape.length) :
    (reducedShape false shape maskA).length = maskA.count false := by
  induction maskA, shape, hlen using pair_induct with
  | nil => rfl
  | cons a n maskA shape _ ih => cases a <;> simp [reducedShape, ih]

theorem length_union (hlen : maskA.length = maskB.length) : (union maskA maskB).length = maskB.length := by
  induction maskA, maskB, hlen using pair_induct with
  | nil => rfl
  | cons a b maskA maskB _ ih => rw [union, length_cons, length_cons, ih]

theorem count_union_le (hlen : maskA.length = maskB.length) : (union maskA maskB).count false ≤ maskB.count false := by
  induction maskA, maskB, hlen using pair_induct with
  | nil => exact Nat.zero_le _
  | cons a b maskA maskB _ ih => cases a <;> cases b <;> simp [union] <;> omega

theorem within_of_count (hlen : maskA.length = maskB.length)
    (hcount : (union maskA maskB).count false = maskB.count false) : Within maskA maskB := by
  induction maskA, maskB, hlen using pair_induct with
  | nil =>
    intro i hi
    simp at hi
  | cons a b maskA maskB hlen ih =>
    have hle := count_union_le hlen
    have hhead : a = true → b = true := by
      intro ha
      subst ha
      cases b with
      | true => rfl
      | false =>
        simp [union] at hcount
        omega
    have hrest : (union maskA maskB).count false = maskB.count false := by
      cases a <;> cases b <;> simp [union] at hcount hhead ⊢ <;> omega
    intro i hi
    cases i with
    | zero => simpa using hhead (by simpa using hi)
    | succ i => exact ih hrest i hi

end Onnxsim.Reduce.Axes
