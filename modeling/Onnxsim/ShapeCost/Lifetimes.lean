import Onnxsim.ShapeCost.ArenaPlans

namespace Onnxsim.ShapeCost.Lifetimes

open List Option Lib.Dicts ArenaPlans

variable {g : Graph} {x : String} {i : Nat} {j : Nat} {inits : List String} {d : Dict String Int} {t : Lifetimes}
  {ns : List Node} {n : Node}

theorem get?_setDefault (k : String) (v : Int) : (setDefault d k v).get? x = (d.get? x).or (if x = k then some v else none) := by
  rw [setDefault]
  split
  · next hk =>
    by_cases hx : x = k
    · rw [hx, or_of_isSome hk]
    · rw [if_neg hx, or_none]
  · next hk =>
    rw [Dict.get?_set]
    by_cases hx : x = k
    · have hnone : d.get? k = none := by simpa using hk
      rw [if_pos hx, if_pos hx, hx, hnone, none_or]
    · rw [if_neg hx, if_neg hx, or_none]

theorem get?_noteOutputs (os : List String) (d : Dict String Int) :
    (os.foldl (fun d o => if o ≠ "" ∧ o ∉ inits then setDefault d o i else d) d).get? x =
      (d.get? x).or (if x ∈ os ∧ x ≠ "" ∧ x ∉ inits then some (i : Int) else none) := by
  induction os generalizing d with
  | nil => simp
  | cons o os ih =>
    rw [foldl_cons, ih]
    by_cases ho : o ≠ "" ∧ o ∉ inits
    · rw [if_pos ho, get?_setDefault, Option.or_assoc]
      congr 1
      by_cases hx : x = o
      · subst hx
        rw [if_pos rfl, some_or, if_pos ⟨mem_cons_self, ho⟩]
      · rw [if_neg hx, none_or]
        simp [hx]
    · rw [if_neg ho]
      congr 1
      by_cases hx : x = o
      · subst hx
        rw [if_neg fun h => ho h.2, if_neg fun h => ho h.2]
      · simp [hx]

theorem get?_noteInputs (xs : List String) (d : Dict String Int) :
    (xs.foldl (fun d x => if x ≠ "" then d.set x i else d) d).get? x =
      if x ∈ xs ∧ x ≠ "" then some (i : Int) else d.get? x := by
  induction xs generalizing d with
  | nil => simp
  | cons y xs ih =>
    rw [foldl_cons, ih]
    by_cases hmem : x ∈ xs ∧ x ≠ ""
    · rw [if_pos hmem, if_pos ⟨mem_cons_of_mem y hmem.1, hmem.2⟩]
    · rw [if_neg hmem]
      by_cases hy : y ≠ ""
      · rw [if_pos hy, Dict.get?_set]
        by_cases hx : x = y
        · subst hx
          rw [if_pos rfl, if_pos ⟨mem_cons_self, hy⟩]
        · rw [if_neg hx, if_neg]
          rintro ⟨hin, hne⟩
          exact hmem ⟨(mem_cons.mp hin).resolve_left hx, hne⟩
      · rw [if_neg hy, if_neg]
        rintro ⟨hin, hne⟩
        obtain rfl | hrest := mem_cons.mp hin
        · exact hy hne
        · exact hmem ⟨hrest, hne⟩

theorem get?_first : (noteNode inits i t n).first.get? x =
    (t.first.get? x).or (if x ∈ n.outputs ∧ x ≠ "" ∧ x ∉ inits then some (i : Int) else none) :=
  get?_noteOutputs n.outputs t.first

theorem get?_last : (noteNode inits i t n).last.get? x = if x ∈ n.inputs ∧ x ≠ "" then some (i : Int) else t.last.get? x :=
  get?_noteInputs n.inputs t.last

theorem first_kept {v : Int} (h : t.first.get? x = some v) : (noteNodes inits i ns t).first.get? x = some v := by
  induction ns generalizing i t with
  | nil => exact h
  | cons n ns ih =>
    apply ih
    rw [get?_first, h, some_or]

theorem first_made (h : t.first.get? x = none) (hn : ns[j]? = some n) (hx : x ∈ n.outputs) (hne : x ≠ "")
    (hinit : x ∉ inits) (hearly : ∀ k m, k < j → ns[k]? = some m → x ∉ m.outputs) :
    (noteNodes inits i ns t).first.get? x = some ((i + j : Nat) : Int) := by
  induction ns generalizing i t j with
  | nil => cases hn
  | cons m ns ih =>
    cases j with
    | zero =>
      obtain rfl : m = n := Option.some.inj hn
      rw [noteNodes]
      apply first_kept
      rw [get?_first, h, none_or, if_pos ⟨hx, hne, hinit⟩]
      rfl
    | succ j =>
      have hnot : x ∉ m.outputs := hearly 0 m (Nat.succ_pos j) rfl
      have hnone : (noteNode inits i t m).first.get? x = none := by
        rw [get?_first, h, none_or, if_neg fun hall => hnot hall.1]
      have hrest := ih (i := i + 1) hnone hn fun k m' hk hm' => hearly (k + 1) m' (Nat.succ_lt_succ hk) hm'
      rw [noteNodes, hrest]
      congr 2
      omega

theorem last_grows {l₀ : Int} (h : ∃ l, t.last.get? x = some l ∧ l₀ ≤ l) (hi : l₀ ≤ i) :
    ∃ l, (noteNodes inits i ns t).last.get? x = some l ∧ l₀ ≤ l := by
  induction ns generalizing i t with
  | nil => exact h
  | cons n ns ih =>
    apply ih
    · rw [get?_last]
      by_cases hx : x ∈ n.inputs ∧ x ≠ ""
      · exact ⟨i, by rw [if_pos hx], hi⟩
      · rw [if_neg hx]
        exact h
    · push_cast
      omega

theorem last_read (hn : ns[j]? = some n) (hx : x ∈ n.inputs) (hne : x ≠ "") :
    ∃ l, (noteNodes inits i ns t).last.get? x = some l ∧ ((i + j : Nat) : Int) ≤ l := by
  induction ns generalizing i t j with
  | nil => cases hn
  | cons m ns ih =>
    cases j with
    | zero =>
      obtain rfl : m = n := Option.some.inj hn
      rw [noteNodes]
      apply last_grows
      · refine ⟨i, ?_, le_rfl⟩
        rw [get?_last, if_pos ⟨hx, hne⟩]
      · push_cast
        omega
    | succ j =>
      obtain ⟨l, hl, hle⟩ := ih (i := i + 1) (t := noteNode inits i t m) hn
      refine ⟨l, hl, ?_⟩
      rwa [show i + 1 + j = i + (j + 1) by omega] at hle

theorem reader_of_last {l : Int} (h : (noteNodes inits i ns t).last.get? x = some l) :
    t.last.get? x = some l ∨ ∃ j n, ns[j]? = some n ∧ x ∈ n.inputs ∧ x ≠ "" ∧ l = ((i + j : Nat) : Int) := by
  induction ns generalizing i t with
  | nil => exact .inl h
  | cons n ns ih =>
    obtain hkept | ⟨j, m, hm, hx, hne, hl⟩ := ih h
    · rw [get?_last] at hkept
      by_cases hx : x ∈ n.inputs ∧ x ≠ ""
      · rw [if_pos hx] at hkept
        exact .inr ⟨0, n, rfl, hx.1, hx.2, (Option.some.inj hkept).symm⟩
      · rw [if_neg hx] at hkept
        exact .inl hkept
    · refine .inr ⟨j + 1, m, hm, hx, hne, ?_⟩
      rw [hl, show i + 1 + j = i + (j + 1) by omega]

theorem get?_setAll (xs : List String) (v : Int) (d : Dict String Int) :
    (xs.foldl (fun d n => d.set n v) d).get? x = if x ∈ xs then some v else d.get? x := by
  induction xs generalizing d with
  | nil => simp
  | cons y xs ih =>
    rw [foldl_cons, ih, Dict.get?_set]
    by_cases hx : x = y
    · simp [hx]
    · simp [hx]

variable {l : Int}

theorem span_input (hx : x ∈ g.inNames) : (span g x).1 = -1 := by
  have hfirst : (lifetimes g).first.get? x = some (-1) := by
    apply first_kept
    rw [get?_setAll, if_pos hx]
  rw [ArenaPlans.span, hfirst, getD_some]

theorem span_made (hssa : g.Ssa) (hn : g.nodes[i]? = some n) (hx : x ∈ n.outputs) (hne : x ≠ "") : (span g x).1 = i := by
  obtain ⟨hinput, hinit⟩ := hssa.fresh n (mem_of_getElem? hn) x hx hne
  have hfirst : (lifetimes g).first.get? x = some ((0 + i : Nat) : Int) := by
    apply first_made _ hn hx hne hinit
    · intro k m hk hm hmem
      exact absurd (hssa.once k i m n x hm hn hmem hx hne) hk.ne
    · have hnot : x ∉ g.inNames := fun h => hinput (mem_filter.mp h).1
      rw [get?_setAll, if_neg hnot, Dict.get?_empty]
  rw [ArenaPlans.span, hfirst, getD_some, Nat.zero_add]

theorem get?_lifetimes : (lifetimes g).last.get? x = if x ∈ g.outputs then some (g.nodes.length : Int)
    else (noteNodes g.initializers 0 g.nodes ⟨g.inNames.foldl (fun d n => d.set n (-1)) Dict.empty, Dict.empty⟩).last.get? x :=
  get?_setAll _ _ _

theorem span_output (hx : x ∈ g.outputs) : (span g x).2 = g.nodes.length := by
  rw [ArenaPlans.span, get?_lifetimes, if_pos hx, getD_some]

theorem le_span_read (hn : g.nodes[i]? = some n) (hx : x ∈ n.inputs) (hne : x ≠ "") : (i : Int) ≤ (span g x).2 := by
  have hlt : i < g.nodes.length := (List.getElem?_eq_some_iff.mp hn).1
  by_cases hout : x ∈ g.outputs
  · rw [span_output hout]
    omega
  · obtain ⟨l, hl, hle⟩ : ∃ l, (noteNodes g.initializers 0 g.nodes
        ⟨g.inNames.foldl (fun d n => d.set n (-1)) Dict.empty, Dict.empty⟩).last.get? x = some l ∧
        ((0 + i : Nat) : Int) ≤ l := last_read hn hx hne
    rw [ArenaPlans.span, get?_lifetimes, if_neg hout, hl, getD_some]
    omega

theorem span_of_last (h : (lifetimes g).last.get? x = some l) : (span g x).2 = l := by
  rw [ArenaPlans.span, h, getD_some]

theorem span_end (x : String) : (span g x).2 = g.nodes.length ∨
    ∃ (j : Nat) (n : Node), g.nodes[j]? = some n ∧ x ∈ n.inputs ∧ x ≠ "" ∧ (span g x).2 = (j : Int) := by
  cases hlast : (lifetimes g).last.get? x with
  | none =>
    left
    rw [ArenaPlans.span, hlast, getD_none]
  | some l =>
    rw [span_of_last hlast]
    rw [get?_lifetimes] at hlast
    by_cases hout : x ∈ g.outputs
    · rw [if_pos hout] at hlast
      exact .inl (Option.some.inj hlast).symm
    · rw [if_neg hout] at hlast
      obtain hempty | ⟨j, n, hn, hx, hne, hl⟩ := reader_of_last hlast
      · cases hempty
      · rw [Nat.zero_add] at hl
        exact .inr ⟨j, n, hn, hx, hne, hl⟩

theorem neg_one_lt_span (x : String) : -1 < (span g x).2 := by
  obtain hend | ⟨j, -, -, -, -, hj⟩ := span_end (g := g) x
  · omega
  · omega

theorem lt_of_made_of_read {m : Node} (hssa : g.Ssa) (hn : g.nodes[i]? = some n) (hx : x ∈ n.outputs) (hne : x ≠ "")
    (hm : g.nodes[j]? = some m) (hread : x ∈ m.inputs) : i < j := by
  obtain ⟨hinput, hinit⟩ := hssa.fresh n (mem_of_getElem? hn) x hx hne
  obtain hx' | hx' | ⟨k, m', hk, hm', hmade⟩ := hssa.ordered j m x hm hread hne
  · exact absurd hx' hinit
  · exact absurd hx' hinput
  · rw [hssa.once i k n m' x hn hm' hx hmade hne]
    exact hk

theorem le_span_made (hssa : g.Ssa) (hn : g.nodes[i]? = some n) (hx : x ∈ n.outputs) (hne : x ≠ "") :
    (i : Int) ≤ (span g x).2 := by
  have hlt : i < g.nodes.length := (List.getElem?_eq_some_iff.mp hn).1
  obtain hend | ⟨j, m, hm, hread, -, hj⟩ := span_end (g := g) x
  · omega
  · have hij := lt_of_made_of_read hssa hn hx hne hm hread
    omega

end Onnxsim.ShapeCost.Lifetimes
