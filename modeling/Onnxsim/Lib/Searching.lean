import Mathlib.Data.List.Infix

namespace Onnxsim.Lib.Separators

open List

variable {α : Type} {a : α} {x y u v : List α}

theorem append_cons_inj (hx : a ∉ x) (hy : a ∉ y)
    (h : x ++ a :: u = y ++ a :: v) : x = y ∧ u = v := by
  classical
  have htake {z w : List α} (hz : a ∉ z) : (z ++ a :: w).takeWhile (· ≠ a) = z := by
    rw [takeWhile_append_of_pos fun b hb => by simpa using ne_of_mem_of_not_mem hb hz]
    simp
  have hxy : x = y := by rw [← htake hx, h, htake hy]
  subst hxy
  exact ⟨rfl, (List.cons.inj (append_cancel_left h)).2⟩

theorem append_cons_inj_right (hu : a ∉ u) (hv : a ∉ v)
    (h : x ++ a :: u = y ++ a :: v) : x = y ∧ u = v := by
  have hrev := congrArg List.reverse h
  simp only [reverse_append, reverse_cons, append_assoc, singleton_append] at hrev
  obtain ⟨hu', hx'⟩ := append_cons_inj (fun hm => hu (mem_reverse.mp hm))
    (fun hm => hv (mem_reverse.mp hm)) hrev
  exact ⟨reverse_injective hx', reverse_injective hu'⟩

end Onnxsim.Lib.Separators

namespace Onnxsim.Lib.Searching

open List

variable {α : Type} [DecidableEq α] {marker : List α} {c : α} {cs pre rest : List α}

/-- What follows the first place at which `marker` stands in a text. -/
def after (marker : List α) : List α → Option (List α)
  | [] => if marker = [] then some [] else none
  | c :: cs => if marker <+: c :: cs then some ((c :: cs).drop marker.length) else after marker cs

theorem after_cons_of_not (h : ¬ marker <+: c :: cs) : after marker (c :: cs) = after marker cs := by
  rw [after, if_neg h]

variable {ms : List α} {m : α}

theorem after_cons_of_ne (h : m ≠ c) : after (m :: ms) (c :: cs) = after (m :: ms) cs :=
  after_cons_of_not fun hp => h (cons_prefix_cons.mp hp).1

theorem after_marker (hm : marker ≠ []) : after marker (marker ++ rest) = some rest := by
  cases marker with
  | nil => exact absurd rfl hm
  | cons m ms =>
    have h : m :: ms <+: m :: (ms ++ rest) := prefix_append (m :: ms) rest
    rw [cons_append, after, if_pos h, ← cons_append, drop_left]

/-- A text without the marker's first letter holds no place where the marker starts. -/
theorem after_append_of_notMem (h : m ∉ pre) : after (m :: ms) (pre ++ rest) = after (m :: ms) rest := by
  induction pre with
  | nil => rfl
  | cons p pre ih =>
    rw [mem_cons, not_or] at h
    rw [cons_append, after_cons_of_ne h.1, ih h.2]

omit [DecidableEq α] in
/-- Two words that a separator ends are prefixes of one text only when they are the same word. -/
theorem prefix_of_ended {q : α} {u v : List α} (hu : q ∉ u) (hv : q ∉ v) (h : u ++ q :: pre <+: v ++ q :: rest) :
    u = v := by
  obtain ⟨t, ht⟩ := h
  rw [append_assoc, cons_append] at ht
  exact (Separators.append_cons_inj hu hv ht).1

end Onnxsim.Lib.Searching
