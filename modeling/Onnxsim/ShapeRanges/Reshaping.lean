import Mathlib.Data.Rat.Floor
import Onnxsim.Lib.Results
import Onnxsim.ShapeRanges.Broadcasting

namespace Onnxsim.ShapeRanges.Reshaping

open List Option Lib.Results Dims

variable {a : Extended}

abbrev Extended := WithBot (WithTop ℚ)

def finite (q : ℚ) : Extended := ((q : WithTop ℚ) : WithBot (WithTop ℚ))

def number? : Extended → Option ℚ
  | some (some q) => some q
  | _ => none

@[simp] theorem number?_finite (q : ℚ) : number? (finite q) = some q := rfl

theorem finite_le {p q : ℚ} : finite p ≤ finite q ↔ p ≤ q := by
  rw [finite, finite, WithBot.coe_le_coe, WithTop.coe_le_coe]

theorem number?_eq_some {q : ℚ} : number? a = some q ↔ a = finite q := by
  constructor
  · intro h
    match a, h with
    | some (some p), h =>
      cases h
      rfl
    | some none, h => cases h
    | none, h => cases h
  · rintro rfl
    rfl

theorem number_of_between {p q : ℚ} (hp : finite p ≤ a) (hq : a ≤ finite q) : ∃ r, a = finite r := by
  match a with
  | some (some r) => exact ⟨r, rfl⟩
  | some none =>
    have htop : (⊤ : WithTop ℚ) ≤ (q : WithTop ℚ) := WithBot.coe_le_coe.mp hq
    exact absurd htop (not_le.mpr (WithTop.coe_lt_top q))
  | none => exact absurd hp (not_le.mpr (WithBot.bot_lt_coe _))

abbrev Slot := Option Dim

/-- What the rule reads off an entry of the target. -/
inductive Entry where
  | infer
  | unknown
  | dim (d : Dim)

def floorOf (a : Extended) : Except RuleError Int :=
  match number? a with
  | some q => .ok ⌊q⌋
  | none => .error .overflow

def entryOf (shape : Shape) (allowzero : Bool) (i : Nat) (a b : Extended) : Except RuleError Entry :=
  if a = b ∧ a = finite (-1) then .ok .infer
  else if a = b ∧ a = finite 0 ∧ allowzero = false then
    .ok (match shape[i]? with
      | some d => .dim d
      | none => .unknown)
  else if a < finite 0 ∨ a ≤ finite 0 ∧ finite 0 ≤ b ∧ allowzero = false ∧ a ≠ b then .ok .unknown
  else do
    let lo ← floorOf a
    let d ← newDim (max 0 lo) ((number? b).map fun q => ⌈q⌉)
    .ok (.dim d)

def reshapeLoop (shape : Shape) (allowzero : Bool) (i : Nat) (out : List Slot) :
    List (Extended × Extended) → Except RuleError (Option (List Slot))
  | [] => .ok (some out)
  | e :: rest => do
    match ← entryOf shape allowzero i e.1 e.2 with
    | .unknown => .ok none
    | .infer =>
      if out.any Option.isNone then .ok none else reshapeLoop shape allowzero (i + 1) (out ++ [none]) rest
    | .dim d => reshapeLoop shape allowzero (i + 1) (out ++ [some d]) rest

/-- The range of the inferred dimension, from those of the element count and of the other dimensions'
product. -/
def inferredDim (n rest : Dim) : Except RuleError Dim :=
  if rest.lo = 0 then newDim 0 (n.hi.map fun h : Nat => (h : Int))
  else
    newDim (rest.hi.elim 0 fun h : Nat => -(-(n.lo : Int) / h)) (n.hi.map fun h : Nat => ((h / rest.lo : Nat) : Int))

def fillInferred (n : Dim) (out : List Slot) : Except RuleError Shape :=
  if out.any Option.isNone then do
    let d ← inferredDim n (numel (out.filterMap id))
    .ok (out.map fun s => s.getD d)
  else .ok (out.filterMap id)

def reshape (shape : Shape) (target : List (Extended × Extended)) (allowzero : Bool) :
    Except RuleError (Option Shape) := do
  match ← reshapeLoop shape allowzero 0 [] target with
  | none => .ok none
  | some out => do .ok (some (← fillInferred (numel shape) out))

/-- An entry of a target: minus one is inferred, zero copies unless it is allowed to stand for itself. -/
def actualEntry (dims : List Nat) (allowzero : Bool) (i : Nat) (t : Int) : Option (Option Nat) :=
  if t = -1 then some none
  else if t = 0 ∧ allowzero = false then (dims[i]?).map some
  else if 0 ≤ t then some (some t.toNat)
  else none

def actualEntries (dims : List Nat) (allowzero : Bool) (i : Nat) : List Int → Option (List (Option Nat))
  | [] => some []
  | t :: ts => do
    let s ← actualEntry dims allowzero i t
    let rest ← actualEntries dims allowzero (i + 1) ts
    some (s :: rest)

/-- One dimension at most is inferred, and then the others divide the element count and are not zero;
without one they make up the element count. -/
def actualReshape (dims : List Nat) (target : List Int) (allowzero : Bool) : Option (List Nat) := do
  let slots ← actualEntries dims allowzero 0 target
  let rest := (slots.filterMap id).prod
  if slots.any Option.isNone then
    if slots.countP Option.isNone = 1 ∧ rest ≠ 0 ∧ rest ∣ dims.prod then
      some (slots.map fun s => s.getD (dims.prod / rest))
    else none
  else if rest = dims.prod then some (slots.filterMap id)
  else none

variable {σ : String → Nat}

def Within (e : Extended × Extended) (t : Int) : Prop := e.1 ≤ finite t ∧ finite t ≤ e.2

def SlotDenotes (σ : String → Nat) : Slot → Option Nat → Prop := Option.Rel (Denotes σ)

/-- What the rule makes of an entry fits what the entry means. -/
def EntryFits (σ : String → Nat) (slot : Option Nat) : Entry → Prop
  | .infer => slot = none
  | .unknown => True
  | .dim d => ∃ n, slot = some n ∧ Denotes σ d n

variable {dims : List Nat} {shape : Shape} {i : Nat} {slot : Option Nat} {b : Extended} {t : Int} {allowzero : Bool}
    {slots : List (Option Nat)} {out : List Slot} {target : List (Extended × Extended)} {ts : List Int} {n : Dim}

theorem entryOf_copy (hs : Contains σ shape dims) (h : (dims[i]?).map some = some slot) :
    EntryFits σ slot (match shape[i]? with
      | some d => .dim d
      | none => .unknown) := by
  obtain ⟨n, hn, rfl⟩ := map_eq_some_iff.mp h
  cases hd : shape[i]? with
  | none => trivial
  | some d =>
    obtain ⟨hlt, rfl⟩ := List.getElem?_eq_some_iff.mp hd
    obtain ⟨hlt', rfl⟩ := List.getElem?_eq_some_iff.mp hn
    exact ⟨_, rfl, (forall₂_iff_get.mp hs).2 i hlt hlt'⟩

theorem entryOf_range (ha : finite 0 ≤ a) (h : Within (a, b) t) :
    ∃ d, (do
      let lo ← floorOf a
      let d ← newDim (max 0 lo) ((number? b).map fun q => ⌈q⌉)
      .ok (Entry.dim d)) = .ok (Entry.dim d) ∧ Denotes σ d t.toNat := by
  obtain ⟨q, rfl⟩ := number_of_between ha h.1
  have hq : q ≤ t := finite_le.mp h.1
  have hq0 : 0 ≤ q := finite_le.mp ha
  have ht : (0 : ℚ) ≤ t := hq0.trans hq
  have ht' : 0 ≤ t := by exact_mod_cast ht
  have hfloor : ⌊q⌋ ≤ t := by
    have := Int.floor_le q
    exact_mod_cast this.trans hq
  have hceil : ∀ c ∈ (number? b).map fun q => ⌈q⌉, ((t.toNat : Nat) : Int) ≤ c := by
    intro c hc
    obtain ⟨r, hr, rfl⟩ := map_eq_some_iff.mp hc
    have hb : b = finite r := number?_eq_some.mp hr
    have hle : (t : ℚ) ≤ r := finite_le.mp (hb ▸ h.2)
    have htr : t ≤ ⌈r⌉ := by
      have hcast : (t : ℚ) ≤ (⌈r⌉ : ℚ) := hle.trans (Int.le_ceil r)
      exact_mod_cast hcast
    rw [Int.toNat_of_nonneg ht']
    exact htr
  have hlo : max 0 ⌊q⌋ ≤ ((t.toNat : Nat) : Int) := by
    rw [Int.toNat_of_nonneg ht']
    exact max_le ht' hfloor
  obtain ⟨d, hd, hdt⟩ := denotes_newDim hlo hceil
  refine ⟨d, ?_, hdt⟩
  have hread : floorOf (finite q) = .ok ⌊q⌋ := by rw [floorOf, number?_finite]
  rw [ok_bind hread, ok_bind hd]

theorem entryOf_sound (hs : Contains σ shape dims) (hw : Within (a, b) t)
    (h : actualEntry dims allowzero i t = some slot) :
    ∃ e, entryOf shape allowzero i a b = .ok e ∧ EntryFits σ slot e := by
  have hpoint {q : ℚ} (hab : a = b) (ha : a = finite q) : (t : ℚ) = q := by
    have hle := hw.1
    have hge := hw.2
    rw [← hab] at hge
    rw [ha] at hle hge
    exact le_antisymm (finite_le.mp hge) (finite_le.mp hle)
  rw [entryOf]
  split
  · next hinfer =>
    have ht : t = -1 := by exact_mod_cast hpoint hinfer.1 hinfer.2
    rw [actualEntry, if_pos ht] at h
    cases h
    exact ⟨.infer, rfl, rfl⟩
  · split
    · next hcopy =>
      have ht : t = 0 := by exact_mod_cast hpoint hcopy.1 hcopy.2.1
      rw [actualEntry, if_neg (by omega), if_pos ⟨ht, hcopy.2.2⟩] at h
      exact ⟨_, rfl, entryOf_copy hs h⟩
    · next hcopy =>
      split
      · exact ⟨.unknown, rfl, trivial⟩
      · next hsign =>
        rw [not_or, not_lt] at hsign
        obtain ⟨d, hd, hdt⟩ := entryOf_range (σ := σ) hsign.1 hw
        refine ⟨.dim d, hd, t.toNat, ?_, hdt⟩
        have ht0 : 0 ≤ t := by
          have hle : finite 0 ≤ finite t := hsign.1.trans hw.1
          exact_mod_cast finite_le.mp hle
        rw [actualEntry, if_neg (by omega)] at h
        have hzero : ¬ (t = 0 ∧ allowzero = false) := by
          rintro ⟨rfl, hz⟩
          have ha0 : a = finite 0 := le_antisymm (by exact_mod_cast hw.1) hsign.1
          have hb0 : finite 0 ≤ b := by exact_mod_cast hw.2
          by_cases hab : a = b
          · exact hcopy ⟨hab, ha0, hz⟩
          · exact hsign.2 ⟨ha0.le, hb0, hz, hab⟩
        rw [if_neg hzero, if_pos ht0] at h
        exact (Option.some.inj h).symm

theorem any_isNone (h : List.Forall₂ (SlotDenotes σ) out slots) : out.any Option.isNone = slots.any Option.isNone := by
  induction h with
  | nil => rfl
  | cons hfirst _ ih =>
    rw [any_cons, any_cons, ih]
    cases hfirst <;> rfl

theorem contains_filterMap (h : List.Forall₂ (SlotDenotes σ) out slots) :
    Contains σ (out.filterMap id) (slots.filterMap id) := by
  induction h with
  | nil => exact .nil
  | cons hfirst _ ih =>
    cases hfirst with
    | some hd => exact .cons hd ih
    | none => exact ih

theorem contains_getD (h : List.Forall₂ (SlotDenotes σ) out slots) {d : Dim} {n : Nat} (hd : Denotes σ d n) :
    Contains σ (out.map fun s => s.getD d) (slots.map fun s => s.getD n) := by
  induction h with
  | nil => exact .nil
  | cons hfirst _ ih =>
    refine .cons ?_ ih
    cases hfirst with
    | some he => exact he
    | none => exact hd

theorem reshapeLoop_sound (hs : Contains σ shape dims) (hw : List.Forall₂ Within target ts)
    {before : List (Option Nat)} (hout : List.Forall₂ (SlotDenotes σ) out before)
    (h : actualEntries dims allowzero i ts = some slots) :
    ∃ r, reshapeLoop shape allowzero i out target = .ok r ∧
      ∀ o ∈ r, List.Forall₂ (SlotDenotes σ) o (before ++ slots) := by
  induction hw generalizing i out before slots with
  | nil =>
    cases h
    refine ⟨some out, rfl, ?_⟩
    intro o ho
    cases ho
    rw [append_nil]
    exact hout
  | @cons e t rest ts hfirst _ ih =>
    obtain ⟨slot, hslot, h⟩ := bind_eq_some_iff.mp h
    obtain ⟨slots', hslots, h⟩ := bind_eq_some_iff.mp h
    cases h
    obtain ⟨entry, hentry, hfits⟩ := entryOf_sound hs hfirst hslot
    rw [reshapeLoop, ok_bind hentry]
    cases entry with
    | unknown => exact ⟨none, rfl, by simp⟩
    | infer =>
      dsimp only
      split
      · exact ⟨none, rfl, by simp⟩
      · have hnone : SlotDenotes σ none slot := by
          have hslot : slot = none := hfits
          rw [hslot]
          exact .none
        have hnext := ih (i := i + 1) (rel_append hout (.cons hnone .nil)) hslots
        rw [append_assoc] at hnext
        exact hnext
    | dim d =>
      obtain ⟨n, rfl, hdn⟩ := hfits
      have hnext := ih (i := i + 1) (rel_append hout (.cons (.some hdn) .nil)) hslots
      rw [append_assoc] at hnext
      exact hnext

theorem inferredDim_sound {rest : Dim} {v r : Nat} (hn : Denotes σ n (v * r)) (hr : Denotes σ rest r) (hpos : r ≠ 0) :
    ∃ d, inferredDim n rest = .ok d ∧ Denotes σ d v := by
  have hr1 : 1 ≤ r := Nat.one_le_iff_ne_zero.mpr hpos
  have hvn : v ≤ v * r := Nat.le_mul_of_pos_right v hr1
  rw [inferredDim]
  split
  · apply denotes_newDim (by omega)
    intro h hh
    obtain ⟨k, hk, hkh⟩ := map_eq_some_iff.mp hh
    rw [← hkh]
    exact_mod_cast hvn.trans (hn.le_hi k hk)
  · next hlo =>
    apply denotes_newDim
    · cases hhi : rest.hi with
      | none => simp
      | some h =>
        have hrh : r ≤ h := hr.le_hi h hhi
        have hle : n.lo ≤ v * h := hn.lo_le.trans (Nat.mul_le_mul_left v hrh)
        have hhpos : (0 : Int) < h := by omega
        have hdiv : -(v : Int) ≤ -(n.lo : Int) / h := by
          rw [Int.le_ediv_iff_mul_le hhpos]
          linarith
        simp only [elim_some]
        omega
    · intro h hh
      obtain ⟨k, hk, rfl⟩ := map_eq_some_iff.mp hh
      have hle : v * rest.lo ≤ k := (Nat.mul_le_mul_left v hr.lo_le).trans (hn.le_hi k hk)
      have hdiv : v ≤ k / rest.lo := (Nat.le_div_iff_mul_le (Nat.pos_of_ne_zero hlo)).mpr hle
      exact_mod_cast hdiv

theorem fillInferred_sound {total : Nat} (hn : Denotes σ n total) (hout : List.Forall₂ (SlotDenotes σ) out slots)
    (h : (if slots.any Option.isNone then
        if slots.countP Option.isNone = 1 ∧ (slots.filterMap id).prod ≠ 0 ∧
            (slots.filterMap id).prod ∣ total then
          some (slots.map fun s => s.getD (total / (slots.filterMap id).prod))
        else none
      else if (slots.filterMap id).prod = total then some (slots.filterMap id) else none) = some dims) :
    ∃ s, fillInferred n out = .ok s ∧ Contains σ s dims := by
  rw [fillInferred, any_isNone hout]
  split at h
  · next hany =>
    rw [if_pos hany]
    split at h
    · next hvalid =>
      cases h
      have hfactor : total / (slots.filterMap id).prod * (slots.filterMap id).prod = total :=
        Nat.div_mul_cancel hvalid.2.2
      obtain ⟨d, hd, hdv⟩ := inferredDim_sound (hfactor.symm ▸ hn) (denotes_numel (contains_filterMap hout))
        hvalid.2.1
      exact ⟨_, ok_bind hd _, contains_getD hout hdv⟩
    · cases h
  · next hany =>
    rw [if_neg hany]
    split at h
    · cases h
      exact ⟨_, rfl, contains_filterMap hout⟩
    · cases h

theorem reshape_sound (hs : Contains σ shape dims) (hw : List.Forall₂ Within target ts) {out : List Nat}
    (h : actualReshape dims ts allowzero = some out) :
    ∃ r, reshape shape target allowzero = .ok r ∧ ∀ s ∈ r, Contains σ s out := by
  obtain ⟨slots, hslots, h⟩ := bind_eq_some_iff.mp h
  obtain ⟨r, hr, hall⟩ := reshapeLoop_sound hs hw .nil hslots
  rw [reshape, ok_bind hr]
  cases r with
  | none => exact ⟨none, rfl, by simp⟩
  | some o =>
    obtain ⟨s, hfill, hso⟩ := fillInferred_sound (denotes_numel hs) (hall o rfl) h
    refine ⟨some s, ok_bind hfill _, ?_⟩
    intro t ht
    cases ht
    exact hso

end Onnxsim.ShapeRanges.Reshaping
