import Mathlib.Algebra.BigOperators.Ring.List
import Mathlib.Data.List.ReduceOption
import Mathlib.Data.Rat.Floor

namespace Onnxsim.Lib.Reductions

open List

variable {V ι κ α : Type}

/-- An operation on groups of values that groups of equal size may be taken through one by one. -/
structure Reduction (V : Type) where
  run : List V → V
  perm : ∀ {vs ws : List V}, vs.Perm ws → run vs = run ws
  singleton : ∀ v, run [v] = v
  join : ∀ (groups : List (List V)) (n : Nat), (∀ g ∈ groups, g.length = n) → run (groups.map run) = run groups.flatten

section

/-- Induction on two lists of one length. -/
theorem pair_induct {motive : (as : List ι) → (bs : List κ) → as.length = bs.length → Prop} (nil : motive [] [] rfl)
    (cons : ∀ a b as bs h, motive as bs h → motive (a :: as) (b :: bs) (congrArg Nat.succ h)) (as : List ι)
    (bs : List κ) (h : as.length = bs.length) : motive as bs h := by
  induction as generalizing bs with
  | nil =>
    cases bs with
    | nil => exact nil
    | cons b bs => cases h
  | cons a as ih =>
    cases bs with
    | nil => cases h
    | cons b bs => exact cons a b as bs (Nat.succ.inj h) (ih bs _)

theorem filter_or_perm (L : List ι) (a b : ι → Bool) (hdisjoint : ∀ i ∈ L, a i = true → b i = false) :
    (L.filter fun i => a i || b i).Perm (L.filter a ++ L.filter b) := by
  induction L with
  | nil => exact List.Perm.refl _
  | cons i L ih =>
    have hrest := ih fun k hk => hdisjoint k (mem_cons_of_mem i hk)
    have hi := hdisjoint i mem_cons_self
    cases ha : a i with
    | true => simpa [ha, hi ha] using hrest
    | false =>
      cases hb : b i with
      | true =>
        simp only [filter_cons, ha, hb, Bool.or_true, if_true]
        exact (hrest.cons i).trans perm_middle.symm
      | false => simpa [ha, hb] using hrest

variable [DecidableEq κ]

theorem groups_perm {J : List κ} (hnodup : J.Nodup) (L : List ι) (key : ι → κ) (p : κ → Bool) :
    ((J.filter p).map fun j => L.filter fun i => key i = j).flatten.Perm
      (L.filter fun i => p (key i) && decide (key i ∈ J)) := by
  induction J with
  | nil => simp
  | cons j J ih =>
    obtain ⟨hfresh, hnodup⟩ := nodup_cons.mp hnodup
    have hrest := ih hnodup
    cases hp : p j with
    | false =>
      have hsame : (L.filter fun i => p (key i) && decide (key i ∈ j :: J)) =
          L.filter fun i => p (key i) && decide (key i ∈ J) := by
        apply filter_congr
        intro i hi
        by_cases hj : key i = j
        · simp [hj, hp]
        · simp [hj]
      rw [hsame]
      simpa [hp] using hrest
    | true =>
      have hsplit : (L.filter fun i => p (key i) && decide (key i ∈ j :: J)) =
          L.filter fun i => decide (key i = j) || (p (key i) && decide (key i ∈ J)) := by
        apply filter_congr
        intro i hi
        by_cases hj : key i = j
        · simp [hj, hp]
        · simp [hj]
      have hor := filter_or_perm L (fun i => decide (key i = j)) (fun i => p (key i) && decide (key i ∈ J)) (by
        intro i hi hj
        simp only [decide_eq_true_eq] at hj
        simp [hj, hfresh])
      rw [hsplit, filter_cons_of_pos hp, map_cons, flatten_cons]
      exact (hrest.append_left _).trans hor.symm

namespace Reduction

variable (R : Reduction V)

/-- Reducing the groups of the selected keys and then the results reduces all items with a selected key. -/
theorem run_groups {J : List κ} (hnodup : J.Nodup) (L : List ι) (key : ι → κ) (val : ι → V) (p : κ → Bool)
    (hkey : ∀ i ∈ L, key i ∈ J) (n : Nat) (hsize : ∀ j ∈ J, (L.filter fun i => key i = j).length = n) :
    R.run ((J.filter p).map fun j => R.run ((L.filter fun i => key i = j).map val)) =
      R.run ((L.filter fun i => p (key i)).map val) := by
  have huniform : ∀ g ∈ (J.filter p).map fun j => (L.filter fun i => key i = j).map val, g.length = n := by
    intro g hg
    obtain ⟨j, hj, rfl⟩ := List.mem_map.mp hg
    rw [length_map]
    exact hsize j (mem_filter.mp hj).1
  have hall : (L.filter fun i => p (key i) && decide (key i ∈ J)) = L.filter fun i => p (key i) := by
    apply filter_congr
    intro i hi
    simp [hkey i hi]
  have hjoin := R.join _ n huniform
  have hflat : ((J.filter p).map fun j => (L.filter fun i => key i = j).map val).flatten =
      (((J.filter p).map fun j => L.filter fun i => key i = j).flatten).map val := by
    rw [map_flatten, List.map_map]
    rfl
  rw [List.map_map, hflat] at hjoin
  have hperm := groups_perm hnodup L key p
  rw [hall] at hperm
  exact hjoin.trans (R.perm (hperm.map val))

end Reduction

end

variable {gs : List (List α)}

/-- An operation that may have no result, on values of which some may be missing. -/
def lift (f : List α → Option α) (vs : List (Option α)) : Option α :=
  if vs.all Option.isSome then f vs.reduceOption else none

theorem reduceOption_map_some (xs : List α) : (xs.map some).reduceOption = xs := by
  induction xs with
  | nil => rfl
  | cons x xs ih => rw [map_cons, reduceOption_cons_of_some, ih]

theorem lift_map_some (f : List α → Option α) (xs : List α) : lift f (xs.map some) = f xs := by
  rw [lift, if_pos (by simp), reduceOption_map_some]

variable {vs : List (Option α)} {f : List α → Option α}

theorem lift_eq_none (h : none ∈ vs) : lift f vs = none := by
  apply if_neg
  intro hall
  exact absurd (List.all_eq_true.mp hall none h) (by simp)

theorem exists_values (h : none ∉ vs) : ∃ xs : List α, vs = xs.map some := by
  induction vs with
  | nil => exact ⟨[], rfl⟩
  | cons v vs ih =>
    cases v with
    | none => exact absurd mem_cons_self h
    | some x =>
      obtain ⟨xs, rfl⟩ := ih fun hmem => h (mem_cons_of_mem _ hmem)
      exact ⟨x :: xs, rfl⟩

theorem exists_groups {groups : List (List (Option α))} (h : ∀ g ∈ groups, none ∉ g) :
    ∃ gs : List (List α), groups = gs.map (List.map some) := by
  induction groups with
  | nil => exact ⟨[], rfl⟩
  | cons g groups ih =>
    obtain ⟨xs, rfl⟩ := exists_values (h g mem_cons_self)
    obtain ⟨gs, rfl⟩ := ih fun g hg => h g (mem_cons_of_mem _ hg)
    exact ⟨xs :: gs, rfl⟩

/-- The reduction that an operation on known values lifts to. -/
def lifted (f : List α → Option α) (hperm : ∀ {xs ys : List α}, xs.Perm ys → f xs = f ys)
    (hsingleton : ∀ x, f [x] = some x)
    (hjoin : ∀ (gs : List (List α)) (n : Nat), (∀ g ∈ gs, g.length = n) → lift f (gs.map f) = f gs.flatten) :
    Reduction (Option α) where
  run := lift f
  perm := by
    intro vs ws h
    rw [lift, lift, h.all_eq]
    have hvalues : vs.reduceOption.Perm ws.reduceOption := h.filterMap _
    rw [hperm hvalues]
  singleton := by
    intro v
    cases v with
    | none => rfl
    | some x => exact hsingleton x
  join := by
    intro groups n huniform
    by_cases hknown : ∀ g ∈ groups, none ∉ g
    · obtain ⟨gs, rfl⟩ := exists_groups hknown
      have hsizes : ∀ g ∈ gs, g.length = n := by
        intro g hg
        have hlen := huniform _ (List.mem_map_of_mem hg)
        rwa [length_map] at hlen
      have hruns : (gs.map (List.map some)).map (lift f) = gs.map f := by
        rw [List.map_map]
        exact map_congr_left fun g _ => lift_map_some f g
      rw [hruns, hjoin gs n hsizes, ← map_flatten, lift_map_some]
    · push Not at hknown
      obtain ⟨g, hg, hnone⟩ := hknown
      rw [lift_eq_none (List.mem_map.mpr ⟨g, hg, lift_eq_none hnone⟩),
        lift_eq_none (mem_flatten.mpr ⟨g, hg, hnone⟩)]

theorem lift_map_total (f : List α → Option α) (g : List α → α) (gs : List (List α))
    (hg : ∀ xs ∈ gs, f xs = some (g xs)) : lift f (gs.map f) = f (gs.map g) := by
  have hmap : gs.map f = (gs.map g).map some := by
    rw [List.map_map]
    exact map_congr_left hg
  rw [hmap, lift_map_some]

/-- Of groups without elements only the empty list of groups matters to an operation that needs elements. -/
theorem lift_map_empty (hnil : f [] = none) (hempty : ∀ g ∈ gs, g.length = 0) : lift f (gs.map f) = f gs.flatten := by
  have hflat : gs.flatten = [] := flatten_eq_nil_iff.mpr fun g hg => length_eq_zero_iff.mp (hempty g hg)
  rw [hflat, hnil]
  cases gs with
  | nil => exact hnil
  | cons g gs =>
    apply lift_eq_none
    rw [map_cons, length_eq_zero_iff.mp (hempty g mem_cons_self), hnil]
    exact mem_cons_self

def sum : Reduction (Option ℚ) :=
  lifted (fun xs => some xs.sum) (fun h => congrArg some h.sum_eq) (fun x => by simp) (by
    intro gs n _
    rw [lift_map_total _ List.sum gs fun _ _ => rfl, sum_flatten])

def prod : Reduction (Option ℚ) :=
  lifted (fun xs => some xs.prod) (fun h => congrArg some h.prod_eq) (fun x => by simp) (by
    intro gs n _
    rw [lift_map_total _ List.prod gs fun _ _ => rfl, prod_flatten])

def average (xs : List ℚ) : Option ℚ := if xs = [] then none else some (xs.sum / xs.length)

theorem average_of_ne {xs : List ℚ} (h : xs ≠ []) : average xs = some (xs.sum / xs.length) := if_neg h

theorem length_flatten_uniform {n : Nat} (h : ∀ g ∈ gs, g.length = n) : gs.flatten.length = gs.length * n := by
  rw [length_flatten, map_congr_left h, map_const', sum_replicate, nsmul_eq_mul, Nat.cast_id]

theorem flatten_ne_nil {n : Nat} (h : ∀ g ∈ gs, g.length = n) (hn : n ≠ 0) (hgs : gs ≠ []) : gs.flatten ≠ [] := by
  intro hflat
  have hlen := length_flatten_uniform h
  rw [hflat, length_nil] at hlen
  have hpos : gs.length ≠ 0 := fun h0 => hgs (length_eq_zero_iff.mp h0)
  exact absurd hlen.symm (Nat.mul_ne_zero hpos hn)

theorem average_join (gs : List (List ℚ)) (n : Nat) (h : ∀ g ∈ gs, g.length = n) :
    lift average (gs.map average) = average gs.flatten := by
  by_cases hn : n = 0
  · subst hn
    exact lift_map_empty rfl h
  · by_cases hgs : gs = []
    · subst hgs
      rfl
    · have hmean : ∀ xs ∈ gs, average xs = some (xs.sum * (n : ℚ)⁻¹) := by
        intro xs hxs
        have hne : xs ≠ [] := by
          intro hnil
          have hlen := h xs hxs
          rw [hnil] at hlen
          exact hn hlen.symm
        rw [average_of_ne hne, h xs hxs, div_eq_mul_inv]
      have hmap : gs.map (fun xs => xs.sum * (n : ℚ)⁻¹) ≠ [] := fun hnil => hgs (map_eq_nil_iff.mp hnil)
      rw [lift_map_total average (fun xs => xs.sum * (n : ℚ)⁻¹) gs hmean, average_of_ne hmap,
        average_of_ne (flatten_ne_nil h hn hgs), sum_map_mul_right, length_map, length_flatten_uniform h,
        sum_flatten, Nat.cast_mul, mul_comm (gs.length : ℚ), ← div_div, div_eq_mul_inv _ (n : ℚ)]

def mean : Reduction (Option ℚ) :=
  lifted average (by
    intro xs ys h
    rw [average, average, h.sum_eq, h.length_eq]
    simp only [← length_eq_zero_iff, h.length_eq]) (fun x => by simp [average]) average_join

variable (le : α → α → Prop) (htrans : ∀ {x y z}, le x y → le y z → le x z)
  (hsome : ∀ {xs x}, f xs = some x ↔ x ∈ xs ∧ ∀ y ∈ xs, le y x) (hnone : ∀ {xs}, f xs = none ↔ xs = [])

include hsome hnone in
theorem extreme_perm {xs ys : List α} (h : xs.Perm ys) : f xs = f ys := by
  cases hx : f xs with
  | none =>
    rw [hnone.mp hx] at h
    rw [hnone.mpr h.nil_eq.symm]
  | some x =>
    obtain ⟨hmem, hle⟩ := hsome.mp hx
    exact (hsome.mpr ⟨h.mem_iff.mp hmem, fun y hy => hle y (h.mem_iff.mpr hy)⟩).symm

include htrans hsome hnone in
theorem extreme_join (gs : List (List α)) (n : Nat) (h : ∀ g ∈ gs, g.length = n) :
    lift f (gs.map f) = f gs.flatten := by
  by_cases hn : n = 0
  · subst hn
    exact lift_map_empty (hnone.mpr rfl) h
  · by_cases hgs : gs = []
    · subst hgs
      rfl
    · obtain ⟨z, hz⟩ : ∃ z, f gs.flatten = some z :=
        Option.ne_none_iff_exists'.mp fun h0 => flatten_ne_nil h hn hgs (hnone.mp h0)
      have hbest : ∀ xs ∈ gs, f xs = some ((f xs).getD z) := by
        intro xs hxs
        cases hx : f xs with
        | none =>
          have hlen := h xs hxs
          rw [hnone.mp hx] at hlen
          exact absurd hlen.symm hn
        | some x => rfl
      rw [lift_map_total f (fun xs => (f xs).getD z) gs hbest]
      obtain ⟨best, hbestall⟩ : ∃ best, f (gs.map fun xs => (f xs).getD z) = some best :=
        Option.ne_none_iff_exists'.mp fun h0 => hgs (map_eq_nil_iff.mp (hnone.mp h0))
      obtain ⟨hmem, hle⟩ := hsome.mp hbestall
      rw [hbestall]
      symm
      apply hsome.mpr
      constructor
      · obtain ⟨xs, hxs, hx⟩ := List.mem_map.mp hmem
        have hin := (hsome.mp (hbest xs hxs)).1
        rw [hx] at hin
        exact mem_flatten.mpr ⟨xs, hxs, hin⟩
      · intro y hy
        obtain ⟨xs, hxs, hyx⟩ := mem_flatten.mp hy
        exact htrans ((hsome.mp (hbest xs hxs)).2 y hyx) (hle _ (List.mem_map_of_mem hxs))

def max : Reduction (Option ℚ) :=
  lifted List.max? (extreme_perm (· ≤ ·) max?_eq_some_iff max?_eq_none_iff) (fun _ => rfl)
    (extreme_join (· ≤ ·) le_trans max?_eq_some_iff max?_eq_none_iff)

def min : Reduction (Option ℚ) :=
  lifted List.min? (extreme_perm (· ≥ ·) min?_eq_some_iff min?_eq_none_iff) (fun _ => rfl)
    (extreme_join (· ≥ ·) ge_trans min?_eq_some_iff min?_eq_none_iff)

end Onnxsim.Lib.Reductions
