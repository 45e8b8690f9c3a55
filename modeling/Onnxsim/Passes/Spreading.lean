import Mathlib.Data.List.GetD
import Onnxsim.Reduce.Axes
import Onnxsim.ShapeRanges.Broadcasting

namespace Onnxsim.Passes.Spreading

open List Overflow.Arrays
open ShapeRanges.Broadcasting (actualBroadcast actualBroadcast2 actualBroadcastDim actualBroadcastDims
  actualBroadcastDims_comm actualPad)

/-- Every dimension is the other one, or a one that is repeated along it. -/
def Repeats (s t : List Nat) : Prop := List.Forall₂ (fun x z => x = z ∨ x = 1) s t

section

variable {s t u : List Nat}

theorem repeats_refl (s : List Nat) : Repeats s s := by
  induction s with
  | nil => exact .nil
  | cons n s ih => exact .cons (.inl rfl) ih

theorem Repeats.trans (hst : Repeats s t) (htu : Repeats t u) : Repeats s u := by
  induction hst generalizing u with
  | nil =>
    cases htu
    exact .nil
  | cons hhead hrest ih =>
    cases htu with
    | cons hhead' hrest' =>
      refine .cons ?_ (ih hrest')
      obtain rfl | hone := hhead
      · exact hhead'
      · exact .inr hone

theorem repeats_ones (t : List Nat) : Repeats (List.replicate t.length 1) t := by
  induction t with
  | nil => exact .nil
  | cons n t ih => exact .cons (.inr rfl) ih

theorem Repeats.prod_dvd (h : Repeats s t) : s.prod ∣ t.prod := by
  induction h with
  | nil => exact dvd_rfl
  | cons hhead hrest ih =>
    rw [prod_cons, prod_cons]
    obtain rfl | rfl := hhead
    · exact mul_dvd_mul_left _ ih
    · rw [one_mul]
      exact ih.mul_left _

variable {xs ys zs : List Nat}

theorem repeats_left (h : actualBroadcastDims xs ys = some zs) (hlen : xs.length = ys.length) : Repeats xs zs := by
  induction xs generalizing ys zs with
  | nil =>
    cases ys with
    | nil =>
      obtain rfl := Option.some.inj h
      exact .nil
    | cons y ys => cases hlen
  | cons x xs ih =>
    cases ys with
    | nil => cases hlen
    | cons y ys =>
      obtain ⟨d, hd, hdims⟩ := Option.bind_eq_some_iff.mp h
      obtain ⟨rest, hrest, hz⟩ := Option.bind_eq_some_iff.mp hdims
      obtain rfl := Option.some.inj hz
      refine .cons ?_ (ih hrest (Nat.succ.inj hlen))
      unfold actualBroadcastDim at hd
      split_ifs at hd with h₁ h₂ h₃
      · exact .inl (Option.some.inj hd)
      · exact .inr h₂
      · exact .inl (Option.some.inj hd)

variable {n : Nat}

theorem broadcastDim_fit {l l' : Nat} (h : l = n ∨ l = 1) (h' : l' = n ∨ l' = 1) :
    ∃ d, actualBroadcastDim l l' = some d ∧ (d = n ∨ d = 1) := by
  unfold actualBroadcastDim
  obtain rfl | rfl := h
  · by_cases heq : l = l'
    · exact ⟨l, if_pos heq, .inl rfl⟩
    · obtain rfl | rfl := h'
      · exact absurd rfl heq
      · exact ⟨l, by rw [if_neg heq, if_neg heq, if_pos rfl], .inl rfl⟩
  · by_cases heq : 1 = l'
    · exact ⟨1, if_pos heq, .inr rfl⟩
    · exact ⟨l', by rw [if_neg heq, if_pos rfl], h'⟩

end

variable {s t u p : List Nat}

theorem Repeats.length_eq (h : Repeats s t) : s.length = t.length := List.Forall₂.length_eq h

theorem Repeats.broadcastDims (hs : Repeats s u) (ht : Repeats t u) :
    ∃ z, actualBroadcastDims s t = some z ∧ Repeats z u := by
  induction hs generalizing t with
  | nil =>
    cases ht
    exact ⟨[], rfl, .nil⟩
  | cons hhead hrest ih =>
    cases ht with
    | cons hhead' hrest' =>
      obtain ⟨d, hd, hfit⟩ := broadcastDim_fit hhead hhead'
      obtain ⟨z, hz, hrepeats⟩ := ih hrest'
      refine ⟨d :: z, ?_, .cons hfit hrepeats⟩
      rw [actualBroadcastDims, hd, hz]
      rfl

/-- Shapes of one rank that are repeated to a common one broadcast, and are repeated to what they broadcast to. -/
theorem Repeats.broadcast2 (hs : Repeats s u) (ht : Repeats t u) :
    ∃ z, actualBroadcast2 s t = some z ∧ Repeats s z ∧ Repeats t z ∧ Repeats z u := by
  obtain ⟨z, hz, hu⟩ := Repeats.broadcastDims hs ht
  have hlen : s.length = t.length := (Repeats.length_eq hs).trans (Repeats.length_eq ht).symm
  have hright : actualBroadcastDims t s = some z := by rw [actualBroadcastDims_comm, hz]
  refine ⟨z, ?_, repeats_left hz hlen, repeats_left hright hlen.symm, hu⟩
  rw [actualBroadcast2, hlen, Nat.max_self, actualPad, actualPad, hlen, Nat.sub_self, replicate_zero,
    nil_append, nil_append, hz]

theorem Repeats.broadcast2_self (h : Repeats s u) : actualBroadcast2 s u = some u := by
  obtain ⟨z, hz, -, hu, hzu⟩ := Repeats.broadcast2 h (repeats_refl u)
  have heq : z = u := by
    clear hz h
    induction hu with
    | nil => cases hzu; rfl
    | cons hhead hrest ih =>
      cases hzu with
      | cons hhead' hrest' =>
        rw [ih hrest']
        obtain rfl | rfl := hhead
        · rfl
        · obtain rfl | rfl := hhead'
          · rfl
          · rfl
  rw [hz, heq]

theorem alignIndex_repeats (h : Repeats s u) (hp : p ∈ indices u) :
    alignIndex s p = List.zipWith (fun n i => if n = 1 then 0 else i) s p := by
  rw [alignIndex, length_of_mem_indices hp, Repeats.length_eq h, Nat.sub_self, drop_zero]

theorem Repeats.align (hst : Repeats s t) (htu : Repeats t u) (hp : p ∈ indices u) :
    alignIndex t p ∈ indices t ∧ alignIndex s (alignIndex t p) = alignIndex s p := by
  have hboth : alignIndex t p ∈ indices t ∧ List.zipWith (fun n i => if n = 1 then 0 else i) s (alignIndex t p) =
      List.zipWith (fun n i => if n = 1 then 0 else i) s p := by
    rw [alignIndex_repeats htu hp]
    induction hst generalizing u p with
    | nil => exact ⟨mem_singleton.mpr rfl, rfl⟩
    | cons hhead hrest ih =>
      cases htu with
      | cons hhead' hrest' =>
        obtain ⟨i, rest, rfl, hi, hrestp⟩ := exists_of_mem_indices_cons hp
        obtain ⟨hmem, heq⟩ := ih hrest' hrestp
        rw [zipWith_cons_cons, zipWith_cons_cons, zipWith_cons_cons, heq]
        refine ⟨mem_indices_cons.mpr ⟨?_, hmem⟩, ?_⟩
        · split_ifs with hone
          · omega
          · obtain rfl | hone' := hhead'
            · exact hi
            · exact absurd hone' hone
        · congr 1
          split_ifs with hone hone'
          · rfl
          · obtain rfl | hone'' := hhead
            · exact absurd hone' hone
            · exact absurd hone'' hone
          · rfl
  refine ⟨hboth.1, ?_⟩
  rw [alignIndex_repeats hst hboth.1, hboth.2, alignIndex_repeats (hst.trans htu) hp]

end Onnxsim.Passes.Spreading
