import Mathlib.Data.List.TakeWhile
import Onnxsim.Lib.OrderedMaps

namespace Onnxsim.Lib.Loading

open List OrderedMaps

variable {R K V E : Type} [LinearOrder K]

/-- Fill a map record by record. A record may add an entry, be skipped, or end the load, and then what
was added so far stays. -/
def loadEach (check : R → Except E (Option (K × V))) :
    List R → SortedMap K V → Except E Unit × SortedMap K V
  | [], m => (.ok (), m)
  | r :: rs, m =>
    match check r with
    | .error e => (.error e, m)
    | .ok none => loadEach check rs m
    | .ok (some p) => loadEach check rs (m.insert p.1 p.2)

variable {r : R} {rs : List R}

section

variable (check : R → Except E (Option (K × V)))

def passes (r : R) : Bool :=
  match check r with
  | .ok _ => true
  | .error _ => false

def entryOf (r : R) : Option (K × V) :=
  match check r with
  | .ok p => p
  | .error _ => none

/-- The map that the records before the first failing one build. -/
def loaded (rs : List R) : SortedMap K V :=
  .ofList ((rs.takeWhile (passes check)).filterMap (entryOf check))

omit [LinearOrder K] in
theorem passes_of_ok {p : Option (K × V)} (h : check r = .ok p) : passes check r = true := by
  rw [passes, h]

omit [LinearOrder K] in
theorem not_passes_of_error {e : E} (h : check r = .error e) : ¬ passes check r = true := by
  rw [passes, h]
  simp

theorem loadEach_snd (rs : List R) (m : SortedMap K V) :
    (loadEach check rs m).2 =
      ((rs.takeWhile (passes check)).filterMap (entryOf check)).foldl
        (fun m p => m.insert p.1 p.2) m := by
  induction rs generalizing m with
  | nil => rfl
  | cons r rs ih =>
    rw [loadEach]
    cases hr : check r with
    | error e => rw [takeWhile_cons_of_neg (not_passes_of_error check hr)]; rfl
    | ok p =>
      rw [takeWhile_cons_of_pos (passes_of_ok check hr)]
      cases p with
      | none => rw [filterMap_cons_none (by rw [entryOf, hr]), ih]
      | some p => rw [filterMap_cons_some (b := p) (by rw [entryOf, hr]), foldl_cons, ih]

theorem loadEach_empty_snd (rs : List R) : (loadEach check rs .empty).2 = loaded check rs :=
  loadEach_snd check rs .empty

theorem loadEach_ok_iff (rs : List R) (m : SortedMap K V) :
    (loadEach check rs m).1 = .ok () ↔ ∀ r ∈ rs, passes check r = true := by
  induction rs generalizing m with
  | nil => simp [loadEach]
  | cons r rs ih =>
    rw [loadEach, forall_mem_cons]
    cases hr : check r with
    | error e => simp [not_passes_of_error check hr]
    | ok p => cases p <;> simp [passes_of_ok check hr, ih]

/-- A load that fails gives back the map it started from. -/
def Atomic {U S : Type} (prior : S) (r : Except E U × S) : Prop := ∀ e, r.1 = .error e → r.2 = prior

theorem atomic_loadEach_iff (rs : List R) (prior : SortedMap K V) :
    Atomic prior (loadEach check rs .empty) ↔
      (∀ r ∈ rs, passes check r = true) ∨ prior = loaded check rs := by
  rw [← loadEach_ok_iff check rs .empty, Atomic, loadEach_empty_snd]
  cases h : (loadEach check rs .empty).1 with
  | error e => simp [eq_comm]
  | ok u => simp

theorem loaded_of_all_pass (h : ∀ r ∈ rs, passes check r = true) :
    loaded check rs = .ofList (rs.filterMap (entryOf check)) := by
  rw [loaded, takeWhile_eq_self_iff.mpr h]

end

variable (entry : R → Option (K × V))

/-- A record supplies an entry if it is the last one that adds something under that key. -/
def Supplies (rs : List R) (r : R) (p : K × V) : Prop :=
  ∃ l₁ l₂, rs = l₁ ++ r :: l₂ ∧ entry r = some p ∧
    ∀ r' ∈ l₂, ∀ p', entry r' = some p' → p'.1 ≠ p.1

variable {entry} {p : K × V}

omit [LinearOrder K] in
theorem Supplies.mem (h : Supplies entry rs r p) : r ∈ rs := by
  obtain ⟨l₁, l₂, rfl, -, -⟩ := h
  exact mem_append_right _ mem_cons_self

omit [LinearOrder K] in
theorem Supplies.entry_eq (h : Supplies entry rs r p) : entry r = some p := by
  obtain ⟨l₁, l₂, -, hp, -⟩ := h
  exact hp

omit [LinearOrder K] in
theorem Supplies.unique {r' : R} (h : Supplies entry rs r p) (h' : Supplies entry rs r' p) : r = r' := by
  obtain ⟨l₁, l₂, rfl, hp, hlast⟩ := h
  obtain ⟨l₁', l₂', hsplit, hp', hlast'⟩ := h'
  rcases append_eq_append_iff.mp hsplit with ⟨m, -, hm⟩ | ⟨m, -, hm⟩
  · cases m with
    | nil => exact (List.cons.inj hm).1
    | cons x m =>
      obtain ⟨-, hm⟩ := List.cons.inj hm
      exact absurd rfl (hlast r' (hm ▸ mem_append_right _ mem_cons_self) p hp')
  · cases m with
    | nil => exact (List.cons.inj hm).1.symm
    | cons x m =>
      obtain ⟨-, hm⟩ := List.cons.inj hm
      exact absurd rfl (hlast' r (hm ▸ mem_append_right _ mem_cons_self) p hp)

theorem find?_of_supplies (h : Supplies entry rs r p) :
    (SortedMap.ofList (rs.filterMap entry)).find? p.1 = some p.2 := by
  obtain ⟨l₁, l₂, rfl, hp, hlast⟩ := h
  rw [filterMap_append, filterMap_cons_some hp]
  apply SortedMap.find?_ofList_append
  intro q hq
  obtain ⟨r', hr', he⟩ := mem_filterMap.mp hq
  exact hlast r' hr' q he

theorem exists_supplies (h : (SortedMap.ofList (rs.filterMap entry)).find? p.1 = some p.2) :
    ∃ r, Supplies entry rs r p := by
  induction rs using List.reverseRecOn with
  | nil => simp [SortedMap.ofList] at h
  | append_singleton rs r ih =>
    -- a later record that adds nothing under this key leaves the supplier as it was
    have hkeep : (∀ q, entry r = some q → q.1 ≠ p.1) → (∃ r₀, Supplies entry rs r₀ p) →
        ∃ r₀, Supplies entry (rs ++ [r]) r₀ p := by
      rintro hr ⟨r₀, l₁, l₂, rfl, hp, hlast⟩
      refine ⟨r₀, l₁, l₂ ++ [r], by simp, hp, fun r' hr' p' hp' => ?_⟩
      rcases mem_append.mp hr' with hr' | hr'
      · exact hlast r' hr' p' hp'
      · exact hr p' (mem_singleton.mp hr' ▸ hp')
    rw [filterMap_append] at h
    cases hr : entry r with
    | none =>
      rw [filterMap_cons_none hr, filterMap_nil, append_nil] at h
      exact hkeep (fun q hq => by rw [hr] at hq; cases hq) (ih h)
    | some q =>
      rw [filterMap_cons_some hr, filterMap_nil, SortedMap.ofList_append_singleton,
        SortedMap.find?_insert] at h
      by_cases hk : p.1 = q.1
      · rw [if_pos hk] at h
        have hpq : q = p := Prod.ext hk.symm (Option.some.inj h)
        exact ⟨r, rs, [], rfl, hpq ▸ hr, by simp⟩
      · rw [if_neg hk] at h
        exact hkeep (fun q' hq' => by rw [hr] at hq'; cases hq'; exact Ne.symm hk) (ih h)

/-- Every entry of a map is what the record that supplies it should give. -/
def AllSupplied (entry : R → Option (K × V)) (rs : List R) (good : R → V → Prop)
    (m : SortedMap K V) : Prop :=
  ∀ p ∈ m.entries, ∃ r, Supplies entry rs r p ∧ good r p.2

theorem allSupplied_iff {good : R → V → Prop} :
    AllSupplied entry rs good (.ofList (rs.filterMap entry)) ↔
      ∀ r p, Supplies entry rs r p → good r p.2 := by
  constructor
  · intro h r p hr
    obtain ⟨r', hr', hgood⟩ := h p ((SortedMap.find?_eq_some_iff _ _ _).mp (find?_of_supplies hr))
    exact hr.unique hr' ▸ hgood
  · intro h p hp
    obtain ⟨r, hr⟩ := exists_supplies ((SortedMap.find?_eq_some_iff _ _ _).mpr hp)
    exact ⟨r, hr, h r p hr⟩

end Onnxsim.Lib.Loading
