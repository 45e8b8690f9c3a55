import Mathlib.Data.List.Nodup
import Mathlib.Data.List.Perm.Subperm
import Mathlib.Data.List.Range

namespace Onnxsim.Lib.Kahn

open List

/-- The items `0, …, n - 1`, each with the items it comes after. -/
structure Problem where
  n : Nat
  deps : Nat → List Nat
  deps_nodup : ∀ c, (deps c).Nodup
  deps_lt : ∀ c, ∀ d ∈ deps c, d < n

structure State where
  ready : List Nat
  indeg : Nat → Nat
  order : List Nat

variable (p : Problem) (prio : Nat → Nat)

/-- The item of least priority; of two equal ones, the one of lower index. -/
def best : List Nat → Option Nat
  | [] => none
  | i :: rest =>
    match best rest with
    | none => some i
    | some j => if prio i < prio j ∨ prio i = prio j ∧ i ≤ j then some i else some j

def consumers (i : Nat) : List Nat := (List.range p.n).filter fun c => i ∈ p.deps c

/-- One item fewer that `c` waits for. -/
def release (s : State) (c : Nat) : State where
  ready := if s.indeg c - 1 = 0 then s.ready ++ [c] else s.ready
  indeg := Function.update s.indeg c (s.indeg c - 1)
  order := s.order

def pop (s : State) (i : Nat) : State :=
  (consumers p i).foldl release ⟨s.ready.erase i, s.indeg, s.order ++ [i]⟩

def loop : Nat → State → State
  | 0, s => s
  | fuel + 1, s =>
    match best prio s.ready with
    | none => s
    | some i => loop fuel (pop p s i)

def start : State where
  ready := (List.range p.n).filter fun c => (p.deps c).length = 0
  indeg c := (p.deps c).length
  order := []

/-- Kahn's algorithm: take a ready item of least priority as long as there is one. -/
def kahn : List Nat := (loop p prio p.n (start p)).order

variable {i c : Nat}

section

variable {p prio}

theorem best_mem {l : List Nat} (h : best prio l = some i) : i ∈ l := by
  induction l generalizing i with
  | nil => cases h
  | cons j l ih =>
    rw [best] at h
    cases hl : best prio l with
    | none =>
      rw [hl] at h
      cases h
      exact mem_cons_self
    | some k =>
      rw [hl] at h
      dsimp only at h
      split at h
      · cases h
        exact mem_cons_self
      · cases h
        exact mem_cons_of_mem _ (ih hl)

theorem best_eq_none {l : List Nat} (h : best prio l = none) : l = [] := by
  cases l with
  | nil => rfl
  | cons j l =>
    rw [best] at h
    cases hl : best prio l with
    | none =>
      rw [hl] at h
      cases h
    | some k =>
      rw [hl] at h
      dsimp only at h
      split at h <;> cases h

theorem mem_consumers : c ∈ consumers p i ↔ c < p.n ∧ i ∈ p.deps c := by
  rw [consumers, mem_filter, mem_range, decide_eq_true_eq]

theorem consumers_nodup (i : Nat) : (consumers p i).Nodup := nodup_range.filter _

theorem foldl_release (cs : List Nat) (hcs : cs.Nodup) (s : State) :
    (cs.foldl release s).order = s.order ∧
      (cs.foldl release s).ready = s.ready ++ cs.filter (fun c => s.indeg c - 1 = 0) ∧
      ∀ c, (cs.foldl release s).indeg c = if c ∈ cs then s.indeg c - 1 else s.indeg c := by
  induction cs generalizing s with
  | nil => simp
  | cons c cs ih =>
    obtain ⟨hc, hnd⟩ := nodup_cons.mp hcs
    obtain ⟨hord, hready, hdeg⟩ := ih hnd (release s c)
    have hsame : ∀ e ∈ cs, (release s c).indeg e = s.indeg e := by
      intro e he
      apply Function.update_of_ne
      rintro rfl
      exact hc he
    refine ⟨hord, ?_, fun e => ?_⟩
    · have hfilter : cs.filter (fun e => (release s c).indeg e - 1 = 0) =
          cs.filter fun e => s.indeg e - 1 = 0 := by
        apply filter_congr
        intro e he
        rw [hsame e he]
      rw [foldl_cons, hready, hfilter, filter_cons, release]
      by_cases hz : s.indeg c - 1 = 0
      · simp [hz]
      · simp [hz]
    · rw [foldl_cons, hdeg e]
      by_cases hec : e = c
      · subst hec
        rw [if_neg hc, if_pos mem_cons_self]
        exact Function.update_self _ _ _
      · have hother : (release s c).indeg e = s.indeg e := Function.update_of_ne hec _ _
        rw [hother]
        simp [hec]

end

variable {p prio}

/-- Every item comes after the items it depends on. -/
def Sorted (p : Problem) (order : List Nat) : Prop :=
  ∀ before a after, order = before ++ a :: after → ∀ d ∈ p.deps a, d ∈ before

/-- The number of items that `c` still waits for. -/
def waiting (p : Problem) (order : List Nat) (c : Nat) : Nat :=
  ((p.deps c).filter fun d => d ∉ order).length

structure Inv (p : Problem) (s : State) : Prop where
  indeg : ∀ c < p.n, s.indeg c = waiting p s.order c
  ready : ∀ c, c ∈ s.ready ↔ c < p.n ∧ c ∉ s.order ∧ s.indeg c = 0
  ready_nodup : s.ready.Nodup
  order_nodup : s.order.Nodup
  order_lt : ∀ c ∈ s.order, c < p.n
  sorted : Sorted p s.order

theorem inv_start (p : Problem) : Inv p (start p) where
  indeg c _ := by
    have hall : (p.deps c).filter (fun d => d ∉ ([] : List Nat)) = p.deps c := by simp
    exact congrArg List.length hall.symm
  ready c := by simp [start]
  ready_nodup := nodup_range.filter _
  order_nodup := nodup_nil
  order_lt c hc := by cases hc
  sorted before a after h := by simp [start] at h

variable {order : List Nat} {s : State}

theorem sorted_snoc (h : Sorted p order) (hi : ∀ d ∈ p.deps i, d ∈ order) : Sorted p (order ++ [i]) := by
  intro before a after heq d hd
  rcases eq_nil_or_concat after with rfl | ⟨after, z, rfl⟩
  · obtain ⟨hbefore, ha⟩ := append_inj' heq rfl
    cases ha
    exact hbefore ▸ hi d hd
  · rw [concat_eq_append, ← cons_append, ← append_assoc] at heq
    exact h before a after (append_inj' heq rfl).1 d hd

theorem Sorted.closed (h : Sorted p order) {a d : Nat} (ha : a ∈ order) (hd : d ∈ p.deps a) : d ∈ order := by
  obtain ⟨before, after, heq⟩ := append_of_mem ha
  have hbefore := h before a after heq d hd
  rw [heq]
  exact mem_append_left _ hbefore

theorem waiting_eq_zero : waiting p order c = 0 ↔ ∀ d ∈ p.deps c, d ∈ order := by
  rw [waiting, length_eq_zero_iff, filter_eq_nil_iff]
  simp

theorem waiting_snoc (hi : i ∉ order) (c : Nat) :
    waiting p (order ++ [i]) c = if i ∈ p.deps c then waiting p order c - 1 else waiting p order c := by
  have hsplit : (p.deps c).filter (fun d => d ∉ order ++ [i]) =
      ((p.deps c).filter fun d => d ∉ order).erase i := by
    have hnd : ((p.deps c).filter fun d => d ∉ order).Nodup := (p.deps_nodup c).filter _
    rw [hnd.erase_eq_filter, List.filter_filter]
    apply filter_congr
    intro d _
    by_cases hdi : d = i <;> simp [hdi]
  rw [waiting, hsplit, waiting]
  by_cases hmem : i ∈ p.deps c
  · rw [if_pos hmem, length_erase_of_mem (mem_filter.mpr ⟨hmem, by simpa using hi⟩)]
  · rw [if_neg hmem, erase_of_not_mem fun h => hmem (mem_filter.mp h).1]

theorem inv_pop (h : Inv p s) (hi : i ∈ s.ready) : Inv p (pop p s i) := by
  obtain ⟨hin, hiord, hi0⟩ := (h.ready i).mp hi
  obtain ⟨hord, hready, hdeg⟩ := foldl_release (consumers p i) (consumers_nodup i)
    ⟨s.ready.erase i, s.indeg, s.order ++ [i]⟩
  have hdone : ∀ d ∈ p.deps i, d ∈ s.order := by
    rw [h.indeg i hin] at hi0
    exact waiting_eq_zero.mp hi0
  have hfresh : ∀ c ∈ consumers p i, c ∉ s.order ∧ c ≠ i ∧ s.indeg c ≠ 0 := by
    intro c hc
    obtain ⟨hcn, hdep⟩ := mem_consumers.mp hc
    refine ⟨fun hco => hiord (h.sorted.closed hco hdep), ?_, ?_⟩
    · rintro rfl
      exact hiord (hdone c hdep)
    · rw [h.indeg c hcn]
      intro hzero
      exact hiord (waiting_eq_zero.mp hzero i hdep)
  have hindeg : ∀ c, (pop p s i).indeg c = if c ∈ consumers p i then s.indeg c - 1 else s.indeg c := hdeg
  have hready' : (pop p s i).ready =
      s.ready.erase i ++ (consumers p i).filter fun c => s.indeg c - 1 = 0 := hready
  have hord' : (pop p s i).order = s.order ++ [i] := hord
  refine ⟨fun c hc => ?_, fun c => ?_, ?_, ?_, ?_, ?_⟩
  · rw [hindeg c, hord', waiting_snoc hiord, h.indeg c hc]
    by_cases hdep : i ∈ p.deps c
    · rw [if_pos (mem_consumers.mpr ⟨hc, hdep⟩), if_pos hdep]
    · rw [if_neg fun hc => hdep (mem_consumers.mp hc).2, if_neg hdep]
  · rw [hready', hord', hindeg c, mem_append, h.ready_nodup.mem_erase_iff, h.ready c, mem_filter,
      mem_append, mem_singleton, decide_eq_true_eq]
    constructor
    · rintro (⟨hne, hc, hco, h0⟩ | ⟨hcons, h0⟩)
      · refine ⟨hc, not_or.mpr ⟨hco, hne⟩, ?_⟩
        rw [if_neg fun hcons => (hfresh c hcons).2.2 h0]
        exact h0
      · refine ⟨(mem_consumers.mp hcons).1, not_or.mpr ⟨(hfresh c hcons).1, (hfresh c hcons).2.1⟩, ?_⟩
        rw [if_pos hcons]
        exact h0
    · rintro ⟨hc, hco, h0⟩
      rw [not_or] at hco
      by_cases hcons : c ∈ consumers p i
      · rw [if_pos hcons] at h0
        exact .inr ⟨hcons, h0⟩
      · rw [if_neg hcons] at h0
        exact .inl ⟨hco.2, hc, hco.1, h0⟩
  · rw [hready']
    apply List.Nodup.append (h.ready_nodup.erase i) ((consumers_nodup i).filter _)
    intro c hc hcons
    have h0 := ((h.ready c).mp (mem_of_mem_erase hc)).2.2
    exact (hfresh c (mem_filter.mp hcons).1).2.2 h0
  · rw [hord']
    exact nodup_append_comm.mp (nodup_cons.mpr ⟨hiord, h.order_nodup⟩)
  · rw [hord']
    intro c hc
    rcases mem_append.mp hc with hc | hc
    · exact h.order_lt c hc
    · exact mem_singleton.mp hc ▸ hin
  · rw [hord']
    exact sorted_snoc h.sorted hdone

theorem inv_loop {fuel : Nat} (h : Inv p s) :
    Inv p (loop p prio fuel s) ∧
      ((loop p prio fuel s).ready = [] ∨ (loop p prio fuel s).order.length = s.order.length + fuel) := by
  induction fuel generalizing s with
  | zero => exact ⟨h, .inr rfl⟩
  | succ fuel ih =>
    rw [loop]
    cases hbest : best prio s.ready with
    | none => exact ⟨h, .inl (best_eq_none hbest)⟩
    | some i =>
      obtain ⟨hinv, hend⟩ := ih (inv_pop h (best_mem hbest))
      refine ⟨hinv, hend.imp_right fun hlen => ?_⟩
      have hord : (pop p s i).order = s.order ++ [i] :=
        (foldl_release (consumers p i) (consumers_nodup i) _).1
      rw [hord, length_append, length_singleton] at hlen
      dsimp only
      omega

theorem kahn_end (p : Problem) (prio : Nat → Nat) :
    Inv p (loop p prio p.n (start p)) ∧ (loop p prio p.n (start p)).ready = [] := by
  have hloop : Inv p (loop p prio p.n (start p)) ∧ ((loop p prio p.n (start p)).ready = [] ∨
      (loop p prio p.n (start p)).order.length = (start p).order.length + p.n) := inv_loop (inv_start p)
  obtain ⟨hinv, hend⟩ := hloop
  refine ⟨hinv, ?_⟩
  rcases hend with hend | hlen
  · exact hend
  · have hsub : (loop p prio p.n (start p)).order ⊆ List.range p.n := fun c hc =>
      mem_range.mpr (hinv.order_lt c hc)
    have hperm : (loop p prio p.n (start p)).order.Perm (List.range p.n) := by
      apply (subperm_of_subset hinv.order_nodup hsub).perm_of_length_le
      rw [hlen, length_range]
      exact Nat.le_add_left _ _
    rw [eq_nil_iff_forall_not_mem]
    intro c hc
    obtain ⟨hcn, hco, -⟩ := (hinv.ready c).mp hc
    exact hco (hperm.mem_iff.mpr (mem_range.mpr hcn))

theorem kahn_sorted (p : Problem) (prio : Nat → Nat) : Sorted p (kahn p prio) := (kahn_end p prio).1.sorted

theorem kahn_nodup (p : Problem) (prio : Nat → Nat) : (kahn p prio).Nodup := (kahn_end p prio).1.order_nodup

theorem kahn_lt (p : Problem) (prio : Nat → Nat) : ∀ c ∈ kahn p prio, c < p.n :=
  (kahn_end p prio).1.order_lt

theorem mem_kahn (prio : Nat → Nat) (rank : Nat → Nat) (hrank : ∀ c < p.n, ∀ d ∈ p.deps c, rank d < rank c)
    (hc : c < p.n) : c ∈ kahn p prio := by
  obtain ⟨hinv, hready⟩ := kahn_end p prio
  induction hr : rank c using Nat.strong_induction_on generalizing c with
  | _ r ih =>
    by_contra hco
    have hwait : ∀ d ∈ p.deps c, d ∈ (loop p prio p.n (start p)).order := by
      intro d hd
      exact ih (rank d) (hr ▸ hrank c hc d hd) (p.deps_lt c d hd) rfl
    have h0 : (loop p prio p.n (start p)).indeg c = 0 := by
      rw [hinv.indeg c hc]
      exact waiting_eq_zero.mpr hwait
    have hmem := (hinv.ready c).mpr ⟨hc, hco, h0⟩
    rw [hready] at hmem
    cases hmem

end Onnxsim.Lib.Kahn
