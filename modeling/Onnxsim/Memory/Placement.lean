import Mathlib.Algebra.Order.BigOperators.Group.List
import Onnxsim.Memory.Planning

namespace Onnxsim.Memory.Placement

open List Option Lib.BestFit
open Lib.Classes
open Lib.OrderedMaps
open Views
open Planning

variable {a iv : Interval} {placed : List Placed} {ivs : List Interval} {x y : String} {b : Int}

theorem placedBefore_total : Std.Total placedBefore := by
  constructor
  intro a b
  simp only [placedBefore]
  rcases lt_trichotomy a.size b.size with h | h | h
  · exact .inr (.inl h)
  · exact (le_total a.name b.name).imp (fun hn => .inr ⟨h, hn⟩) (fun hn => .inr ⟨h.symm, hn⟩)
  · exact .inl (.inl h)

theorem placedBefore_trans : IsTrans Interval placedBefore := by
  constructor
  intro a b c hab hbc
  simp only [placedBefore] at *
  rcases hab with hab | ⟨hab, hn⟩
  · left
    rcases hbc with hbc | ⟨hbc, -⟩ <;> omega
  · rcases hbc with hbc | ⟨hbc, hm⟩
    · left
      omega
    · exact .inr ⟨hab.trans hbc, hn.trans hm⟩

theorem size_le_of_placedBefore {b : Interval} (h : placedBefore a b) : b.size ≤ a.size := by
  rcases h with h | ⟨h, -⟩ <;> omega

theorem sorted_placedBefore (ivs : List Interval) :
    (ivs.insertionSort placedBefore).Pairwise placedBefore := by
  have htotal := placedBefore_total
  have htrans := placedBefore_trans
  exact pairwise_insertionSort placedBefore ivs

/-- Intervals that are needed at one node are clear of each other, and nothing starts below zero. -/
structure Packed (placed : List Placed) : Prop where
  apart : placed.Pairwise fun p q => ¬ p.1.Disjoint q.1 → Apart p.range q.range
  nonneg : ∀ p ∈ placed, 0 ≤ p.2

theorem disjoint_comm {b : Interval} : a.Disjoint b ↔ b.Disjoint a := or_comm

theorem apart_comm {a b : Range} : Apart a b ↔ Apart b a := or_comm

theorem mem_blocking {r : Range} : r ∈ blocking placed iv ↔ ∃ p ∈ placed, ¬ iv.Disjoint p.1 ∧ p.range = r := by
  simp [blocking, and_assoc]

theorem Packed.placeOne (h : Packed placed) (iv : Interval) : Packed (placeOne placed iv) := by
  obtain ⟨hnonneg, hclear⟩ := bestFit_apart iv.size (blocking placed iv)
  constructor
  · apply pairwise_append.mpr
    refine ⟨h.apart, pairwise_singleton _ _, fun p hp q hq hlive => ?_⟩
    rw [mem_singleton.mp hq] at hlive ⊢
    have hblock : p.range ∈ blocking placed iv :=
      mem_blocking.mpr ⟨p, hp, fun hd => hlive (disjoint_comm.mp hd), rfl⟩
    exact apart_comm.mp (hclear _ hblock)
  · intro p hp
    rcases mem_append.mp hp with hp | hp
    · exact h.nonneg p hp
    · rw [mem_singleton.mp hp]
      exact hnonneg

theorem Packed.foldl (h : Packed placed) (ivs : List Interval) : Packed (ivs.foldl Planning.placeOne placed) := by
  induction ivs generalizing placed with
  | nil => exact h
  | cons iv ivs ih => exact ih (h.placeOne iv)

theorem place_packed (ivs : List Interval) : Packed (place ivs) :=
  Packed.foldl ⟨List.Pairwise.nil, by simp⟩ _

theorem foldl_placeOne_fst (placed : List Placed) (ivs : List Interval) :
    (ivs.foldl placeOne placed).map Prod.fst = placed.map Prod.fst ++ ivs := by
  induction ivs generalizing placed with
  | nil => simp
  | cons iv ivs ih => simp [ih, placeOne]

theorem place_fst (ivs : List Interval) :
    (place ivs).map Prod.fst = ivs.insertionSort placedBefore := foldl_placeOne_fst [] _

theorem place_perm (ivs : List Interval) : ((place ivs).map Prod.fst).Perm ivs :=
  place_fst ivs ▸ perm_insertionSort placedBefore ivs

theorem mem_of_place {p : Placed} (h : p ∈ place ivs) : p.1 ∈ ivs :=
  (place_perm ivs).mem_iff.mp (List.mem_map_of_mem h)

theorem exists_place (h : iv ∈ ivs) : ∃ off, (iv, off) ∈ place ivs := by
  obtain ⟨p, hp, rfl⟩ := List.mem_map.mp ((place_perm ivs).mem_iff.mpr h)
  exact ⟨p.2, hp⟩

theorem place_sizes (ivs : List Interval) :
    (place ivs).Pairwise fun p q => q.1.size ≤ p.1.size := by
  have hsorted := sorted_placedBefore ivs
  rw [← place_fst, pairwise_map] at hsorted
  exact hsorted.imp size_le_of_placedBefore

theorem apart_of_place {p q : Placed} (hp : p ∈ place ivs) (hq : q ∈ place ivs) (hne : p ≠ q)
    (hlive : ¬ p.1.Disjoint q.1) : Apart p.range q.range := by
  have hsymm : Std.Symm fun p q : Placed => ¬ p.1.Disjoint q.1 → Apart p.range q.range := by
    constructor
    intro p q h hd
    exact apart_comm.mp (h fun hd' => hd (disjoint_comm.mp hd'))
  exact (place_packed ivs).apart.forall hp hq hne hlive

def total (placed : List Placed) : Int := (placed.map fun p => p.1.size).sum

theorem place_total (ivs : List Interval) : total (place ivs) = (ivs.map Interval.size).sum := by
  have hmap : total (place ivs) = (((place ivs).map Prod.fst).map Interval.size).sum := by
    rw [total, List.map_map]
    rfl
  rw [hmap]
  exact ((place_perm ivs).map Interval.size).sum_eq

def Tight (placed : List Placed) : Prop := ∀ p ∈ placed, p.2 + p.1.size ≤ total placed

theorem total_nonneg (h : ∀ p ∈ placed, 0 ≤ p.1.size) : 0 ≤ total placed := by
  apply sum_nonneg
  intro x hx
  obtain ⟨p, hp, rfl⟩ := List.mem_map.mp hx
  exact h p hp

theorem total_placeOne (placed : List Placed) (iv : Interval) :
    total (placeOne placed iv) = total placed + iv.size := by
  simp [total, placeOne]

theorem Tight.placeOne (h : Tight placed) (hsizes : ∀ p ∈ placed, 0 ≤ p.1.size) (hiv : 0 ≤ iv.size) :
    Tight (placeOne placed iv) := by
  have htotal := total_nonneg hsizes
  intro p hp
  rw [total_placeOne]
  rcases mem_append.mp hp with hp | hp
  · exact (h p hp).trans (by omega)
  · rw [mem_singleton.mp hp]
    apply Int.add_le_add_right
    rcases bestFit_atEnd iv.size (blocking placed iv) with h0 | ⟨b, hb, hend⟩
    · exact h0 ▸ htotal
    · obtain ⟨q, hq, -, rfl⟩ := mem_blocking.mp hb
      exact hend ▸ h q hq

theorem Tight.foldl (h : Tight placed) (hsizes : ∀ p ∈ placed, 0 ≤ p.1.size) (hivs : ∀ iv ∈ ivs, 0 ≤ iv.size) :
    Tight (ivs.foldl Planning.placeOne placed) := by
  induction ivs generalizing placed with
  | nil => exact h
  | cons iv ivs ih =>
    have hiv := hivs iv mem_cons_self
    apply ih (h.placeOne hsizes hiv)
    · intro p hp
      rcases mem_append.mp hp with hp | hp
      · exact hsizes p hp
      · rw [mem_singleton.mp hp]
        exact hiv
    · exact fun j hj => hivs j (mem_cons_of_mem _ hj)

theorem place_tight (h : ∀ iv ∈ ivs, 0 ≤ iv.size) : Tight (place ivs) := by
  apply Tight.foldl (by simp [Tight]) (by simp)
  exact fun iv hiv => h iv ((perm_insertionSort placedBefore ivs).mem_iff.mp hiv)

def arenaOf (placed : List Placed) : Int := placed.foldl (fun arena p => max arena (p.2 + p.1.size)) 0

theorem foldl_max_le_iff (placed : List Placed) (a b : Int) :
    placed.foldl (fun arena p => max arena (p.2 + p.1.size)) a ≤ b ↔
      a ≤ b ∧ ∀ p ∈ placed, p.2 + p.1.size ≤ b := by
  induction placed generalizing a with
  | nil => simp
  | cons p placed ih => rw [foldl_cons, ih, max_le_iff, forall_mem_cons, and_assoc]

theorem arenaOf_nonneg (placed : List Placed) : 0 ≤ arenaOf placed :=
  ((foldl_max_le_iff placed 0 _).mp (le_refl _)).1

theorem le_arenaOf {p : Placed} (h : p ∈ placed) : p.2 + p.1.size ≤ arenaOf placed :=
  ((foldl_max_le_iff placed 0 _).mp (le_refl _)).2 p h

theorem arenaOf_le_total (h : ∀ iv ∈ ivs, 0 ≤ iv.size) : arenaOf (place ivs) ≤ (ivs.map Interval.size).sum := by
  rw [← place_total]
  apply (foldl_max_le_iff _ _ _).mpr
  exact ⟨total_nonneg fun p hp => h _ (mem_of_place hp), place_tight h⟩

theorem live_le_arenaOf (ivs : List Interval) (i : Int) :
    ((ivs.filter fun iv => iv.start ≤ i ∧ i ≤ iv.last).map Interval.size).sum ≤ arenaOf (place ivs) := by
  let live := (place ivs).filter fun p => p.1.start ≤ i ∧ i ≤ p.1.last
  have hlive : ∀ p ∈ live, p ∈ place ivs ∧ p.1.start ≤ i ∧ i ≤ p.1.last := by
    intro p hp
    simpa [live] using hp
  have hperm : (live.map Prod.fst).Perm (ivs.filter fun iv => iv.start ≤ i ∧ i ≤ iv.last) := by
    have h := (place_perm ivs).filter fun iv => iv.start ≤ i ∧ i ≤ iv.last
    rwa [List.filter_map] at h
  have hsizes : ((ivs.filter fun iv => iv.start ≤ i ∧ i ≤ iv.last).map Interval.size).sum =
      ((live.map Placed.range).map fun r => r.2 - r.1).sum := by
    rw [← (hperm.map Interval.size).sum_eq, List.map_map, List.map_map]
    congr 1
    apply map_congr_left
    intro p hp
    simp [Placed.range]
  have hapart : (live.map Placed.range).Pairwise Apart := by
    rw [pairwise_map]
    apply List.Pairwise.imp_of_mem _ ((place_packed ivs).apart.filter _)
    intro p q hp hq h
    obtain ⟨-, hp1, hp2⟩ := hlive p hp
    obtain ⟨-, hq1, hq2⟩ := hlive q hq
    apply h
    rintro (hd | hd) <;> omega
  rw [hsizes]
  apply sum_le_of_apart (arenaOf_nonneg _) hapart
  intro r hr
  obtain ⟨p, hp, rfl⟩ := List.mem_map.mp hr
  exact ⟨(place_packed ivs).nonneg p (hlive p hp).1, le_arenaOf (hlive p hp).1⟩

section

variable {g : GraphView} {p : String × String} {n : NodeView} {done : List (String × Int)}

theorem eligible_of_unaryPair (h : unaryPair g n = some p) : isAliasEligible g p.1 p.2 = true := by
  rw [unaryPair] at h
  split at h
  · split at h
    · split at h
      · next heligible =>
        cases h
        exact heligible
      · cases h
    · cases h
  · cases h

theorem eligible_of_binaryPair (h : binaryPair g n = some p) : isAliasEligible g p.1 p.2 = true := by
  rw [binaryPair] at h
  split at h
  · split at h
    · split at h
      · next heligible =>
        cases h
        exact heligible
      · split at h
        · next heligible =>
          cases h
          exact heligible
        · cases h
    · cases h
  · cases h

theorem bytes_of_aliasPairs (h : p ∈ aliasPairs g) : g.bytes p.1 = g.bytes p.2 := by
  have heligible : isAliasEligible g p.1 p.2 = true := by
    rcases mem_append.mp h with h | h
    · obtain ⟨n, -, hn⟩ := mem_filterMap.mp h
      exact eligible_of_unaryPair hn
    · obtain ⟨n, -, hn⟩ := mem_filterMap.mp h
      exact eligible_of_binaryPair hn
  simp only [isAliasEligible, decide_eq_true_eq] at heligible
  exact heligible.2.2.2.2.2.2.2

theorem bytes_of_find_eq (h : (aliases g).find x = (aliases g).find y) : g.bytes x = g.bytes y := by
  have hgen := UnionFind.eqvGen_of_find_eq h
  clear h
  induction hgen with
  | rel a b hab => exact bytes_of_aliasPairs hab
  | refl a => rfl
  | symm a b _ ih => exact ih.symm
  | trans a b c _ _ ih₁ ih₂ => exact ih₁.trans ih₂

/-- What the groups hold once some of the tensors are added. -/
structure GroupsInv (g : GraphView) (done : List (String × Int)) (groups : SortedMap String GroupSpan) :
    Prop where
  known : ∀ p ∈ done, ∀ b, g.bytes p.1 = some b → ∃ s, groups.find? ((aliases g).find p.1) = some s ∧
    s.start ≤ p.2 ∧ lastOf g p.1 ≤ s.last
  member : ∀ r s, groups.find? r = some s →
    ∃ p ∈ done, g.bytes p.1 = some s.size ∧ (aliases g).find p.1 = r

theorem GroupsInv.size_eq {groups : SortedMap String GroupSpan} (h : GroupsInv g done groups)
    (hb : g.bytes x = some b) {s : GroupSpan} (hs : groups.find? ((aliases g).find x) = some s) : s.size = b := by
  obtain ⟨q, -, hq, hroot⟩ := h.member _ s hs
  have hsame := bytes_of_find_eq hroot
  rw [hq, hb] at hsame
  exact Option.some.inj hsame

theorem GroupsInv.join_size {groups : SortedMap String GroupSpan} (h : GroupsInv g done groups)
    (hb : g.bytes x = some b) (start last : Int) :
    (GroupSpan.join (groups.find? ((aliases g).find x)) ⟨b, start, last⟩).size = b := by
  cases hold : groups.find? ((aliases g).find x) with
  | none => rfl
  | some s =>
    have hs := h.size_eq hb hold
    simp [GroupSpan.join, hs]

theorem GroupsInv.addTensor {groups : SortedMap String GroupSpan} (h : GroupsInv g done groups) (p : String × Int) :
    GroupsInv g (done ++ [p]) (addTensor g groups p) := by
  rw [Planning.addTensor]
  cases hb : g.bytes p.1 with
  | none =>
    constructor
    · intro q hq b hbytes
      rcases mem_append.mp hq with hq | hq
      · exact h.known q hq b hbytes
      · rw [mem_singleton.mp hq, hb] at hbytes
        cases hbytes
    · intro r s hs
      obtain ⟨q, hq, hq'⟩ := h.member r s hs
      exact ⟨q, mem_append_left _ hq, hq'⟩
  | some b =>
    let old := groups.find? ((aliases g).find p.1)
    have hjoin : ∀ s, old = some s →
        (GroupSpan.join old ⟨b, p.2, lastOf g p.1⟩).start ≤ s.start ∧
        s.last ≤ (GroupSpan.join old ⟨b, p.2, lastOf g p.1⟩).last := by
      intro s hs
      rw [hs]
      exact ⟨min_le_left _ _, le_max_left _ _⟩
    have hnew : (GroupSpan.join old ⟨b, p.2, lastOf g p.1⟩).start ≤ p.2 ∧
        lastOf g p.1 ≤ (GroupSpan.join old ⟨b, p.2, lastOf g p.1⟩).last := by
      cases old with
      | none => exact ⟨le_refl _, le_refl _⟩
      | some s => exact ⟨min_le_right _ _, le_max_right _ _⟩
    have hsize := h.join_size hb p.2 (lastOf g p.1)
    constructor
    · intro q hq c hbytes
      simp only [SortedMap.find?_insert]
      by_cases hroot : (aliases g).find q.1 = (aliases g).find p.1
      · refine ⟨_, by rw [if_pos hroot], ?_⟩
        rcases mem_append.mp hq with hq | hq
        · obtain ⟨s, hs, hstart, hlast⟩ := h.known q hq c hbytes
          rw [hroot] at hs
          have hle := hjoin s hs
          exact ⟨hle.1.trans hstart, hlast.trans hle.2⟩
        · rw [mem_singleton.mp hq]
          exact hnew
      · rw [if_neg hroot]
        rcases mem_append.mp hq with hq | hq
        · exact h.known q hq c hbytes
        · rw [mem_singleton.mp hq] at hroot
          exact absurd rfl hroot
    · intro r s hs
      simp only [SortedMap.find?_insert] at hs
      split at hs
      · next hr =>
        cases hs
        exact ⟨p, by simp, by rw [hb]; exact congrArg some hsize.symm, hr.symm⟩
      · obtain ⟨q, hq, hq'⟩ := h.member r s hs
        exact ⟨q, mem_append_left _ hq, hq'⟩

theorem GroupsInv.foldl {groups : SortedMap String GroupSpan} (h : GroupsInv g done groups) (ps : List (String × Int)) :
    GroupsInv g (done ++ ps) (ps.foldl (Planning.addTensor g) groups) := by
  induction ps generalizing done groups with
  | nil => simpa using h
  | cons p ps ih =>
    rw [append_cons]
    exact ih (h.addTensor p)

def groupsSize (groups : SortedMap String GroupSpan) : Int := (groups.entries.map fun p => p.2.size).sum

theorem GroupsInv.groupsSize_addTensor {groups : SortedMap String GroupSpan} (h : GroupsInv g done groups)
    {p : String × Int} (hsize : ∀ b, g.bytes p.1 = some b → 0 ≤ b) :
    groupsSize (Planning.addTensor g groups p) ≤ groupsSize groups + (g.bytes p.1).getD 0 := by
  rw [Planning.addTensor]
  cases hb : g.bytes p.1 with
  | none => simp
  | some b =>
    have hb0 := hsize b hb
    have hjoin := h.join_size hb p.2 (lastOf g p.1)
    have hsum := sum_insertList GroupSpan.size ((aliases g).find p.1)
      (GroupSpan.join (groups.find? ((aliases g).find p.1)) ⟨b, p.2, lastOf g p.1⟩) groups.sorted
    have hold : 0 ≤ ((groups.find? ((aliases g).find p.1)).map GroupSpan.size).getD 0 := by
      cases hs : groups.find? ((aliases g).find p.1) with
      | none => simp
      | some s => simpa [h.size_eq hb hs] using hb0
    simp only [SortedMap.find?] at hold hjoin hsum
    simp only [groupsSize, SortedMap.insert, SortedMap.find?, getD_some]
    omega

theorem GroupsInv.groupsSize_foldl {groups : SortedMap String GroupSpan} (h : GroupsInv g done groups)
    {ps : List (String × Int)} (hsizes : ∀ p ∈ ps, ∀ b, g.bytes p.1 = some b → 0 ≤ b) :
    groupsSize (ps.foldl (Planning.addTensor g) groups) ≤
      groupsSize groups + ((ps.map Prod.fst).filterMap g.bytes).sum := by
  induction ps generalizing done groups with
  | nil => simp
  | cons p ps ih =>
    have hstep := h.groupsSize_addTensor (hsizes p mem_cons_self)
    have hrest := ih (h.addTensor p) fun q hq => hsizes q (mem_cons_of_mem _ hq)
    rw [foldl_cons, map_cons, filterMap_cons]
    cases hb : g.bytes p.1 with
    | none =>
      rw [hb] at hstep
      exact hrest.trans (by simpa using hstep)
    | some b =>
      rw [hb, getD_some] at hstep
      simp only [sum_cons]
      omega

theorem groups_inv (g : GraphView) : GroupsInv g (producedAt g).entries (groups g) := by
  have hempty : GroupsInv g [] .empty := ⟨by simp, by simp⟩
  exact hempty.foldl _

end

variable (attentionTiled : Bool) (g : GraphView)

theorem computeActivationMemoryPlan_eq : computeActivationMemoryPlan attentionTiled g =
    planAround attentionTiled g (nodePlans attentionTiled g.nodes) := by
  cases g
  rfl

def subgraphArenas : List (List Int) :=
  (nodePlans attentionTiled g.nodes).map fun ps => ps.map MemoryPlan.arenaBytes

def synthetic : List Interval :=
  reservedIntervals g (subgraphArenas attentionTiled g) ++ attentionIntervals g attentionTiled

def planned : List Interval := intervals g attentionTiled (subgraphArenas attentionTiled g)

def Live (x : String) (i : Int) : Prop :=
  ∃ start, (producedAt g).find? x = some start ∧ start ≤ i ∧ i ≤ lastOf g x

/-- A reservation or workspace has the name of a tensor's group only where it is larger than the tensor
and so placed before it. -/
def Unshadowed : Prop := ∀ iv ∈ synthetic attentionTiled g, ∀ p ∈ (producedAt g).entries,
  (aliases g).find p.1 = iv.name → ∃ b, g.bytes p.1 = some b ∧ b < iv.size

/-- A reservation or workspace has the name of a tensor's group and is smaller than the tensor. -/
def Undercut : Prop := ∃ iv ∈ synthetic attentionTiled g, ∃ p ∈ (producedAt g).entries,
  (aliases g).find p.1 = iv.name ∧ ∃ b, g.bytes p.1 = some b ∧ iv.size < b

def Counted : Prop := ∀ p ∈ (producedAt g).entries, ∀ b, g.bytes p.1 = some b → 0 ≤ b

def slotRange (slot : Int × Int) : Range := (slot.1, slot.1 + slot.2)

structure SoundPlan (plan : MemoryPlan) : Prop where
  room : ∀ x start b, (producedAt g).find? x = some start → g.bytes x = some b →
    ∃ slot, plan.offsets.find? x = some slot ∧ 0 ≤ slot.1 ∧ slot.1 + slot.2 ≤ plan.arenaBytes ∧
      b ≤ slot.2
  apart : ∀ x y slot slot', plan.offsets.find? x = some slot → plan.offsets.find? y = some slot' →
    (aliases g).find x ≠ (aliases g).find y → (∃ i, Live g x i ∧ Live g y i) →
    Apart (slotRange slot) (slotRange slot')
  live : ∀ i, (((planned attentionTiled g).filter fun iv => iv.start ≤ i ∧ i ≤ iv.last).map
    Interval.size).sum ≤ plan.arenaBytes
  naive : plan.arenaBytes ≤ plan.naiveBytes + ((synthetic attentionTiled g).map Interval.size).sum

variable {attentionTiled g}

theorem offsets_eq : (computeActivationMemoryPlan attentionTiled g).offsets =
    offsets g (place (planned attentionTiled g)) := by
  rw [computeActivationMemoryPlan_eq]
  rfl

theorem arenaBytes_eq : (computeActivationMemoryPlan attentionTiled g).arenaBytes =
    arenaOf (place (planned attentionTiled g)) := by
  rw [computeActivationMemoryPlan_eq]
  rfl

theorem naiveBytes_eq : (computeActivationMemoryPlan attentionTiled g).naiveBytes =
    ((producedAt g).keys.filterMap g.bytes).sum := by
  rw [computeActivationMemoryPlan_eq]
  rfl

theorem mem_planned : iv ∈ planned attentionTiled g ↔ iv ∈ groupIntervals g ∨ iv ∈ synthetic attentionTiled g := by
  rw [planned, intervals, append_assoc, mem_append]
  rfl

theorem mem_groupIntervals :
    iv ∈ groupIntervals g ↔ (groups g).find? iv.name = some ⟨iv.size, iv.start, iv.last⟩ := by
  rw [SortedMap.find?_eq_some_iff, groupIntervals, List.mem_map]
  constructor
  · rintro ⟨p, hp, rfl⟩
    exact hp
  · intro h
    exact ⟨_, h, rfl⟩

theorem synthetic_pos (h : iv ∈ synthetic attentionTiled g) : 0 < iv.size := by
  rcases mem_append.mp h with h | h
  · obtain ⟨p, -, hp⟩ := mem_filterMap.mp h
    split at hp
    · cases hp
    · next hsize =>
      cases hp
      exact not_le.mp hsize
  · rw [attentionIntervals] at h
    split at h
    · cases h
    · obtain ⟨p, -, hp⟩ := mem_filterMap.mp h
      split at hp
      · cases hp
      · split at hp
        · cases hp
        · next hsize =>
          cases hp
          exact not_le.mp hsize

theorem slot_of_placed (h : iv ∈ ivs) :
    ∃ jv off, (groupOffsets (place ivs)).find? iv.name = some (off, jv.size) ∧ (jv, off) ∈ place ivs ∧
      jv.name = iv.name ∧ jv.size ≤ iv.size := by
  obtain ⟨off, hoff⟩ := exists_place h
  have hmem : (iv.name, (off, iv.size)) ∈ (place ivs).map fun p => (p.1.name, (p.2, p.1.size)) :=
    List.mem_map.mpr ⟨_, hoff, rfl⟩
  obtain ⟨w, l₁, l₂, hsplit, hw, hlast⟩ := SortedMap.find?_ofList_of_mem hmem
  obtain ⟨m₁, m₂, hplace, hm₁, hm₂⟩ := map_eq_append_iff.mp hsplit
  obtain ⟨q, m₃, rfl, hq, rfl⟩ := map_eq_cons_iff.mp hm₂
  have hname : q.1.name = iv.name := congrArg Prod.fst hq
  have hslot : (q.2, q.1.size) = w := congrArg Prod.snd hq
  refine ⟨q.1, q.2, by rw [hslot]; exact hw, by rw [hplace]; simp, hname, ?_⟩
  have hsizes := place_sizes ivs
  rw [hplace] at hsizes hoff
  rcases mem_append.mp hoff with hoff | hoff
  · exact (pairwise_append.mp hsizes).2.2 _ hoff _ mem_cons_self
  · rcases mem_cons.mp hoff with hoff | hoff
    · exact hoff ▸ le_refl _
    · exact absurd rfl (hlast _ (List.mem_map.mpr ⟨_, hoff, rfl⟩))

theorem mem_offsets {slot : Int × Int} :
    ((x, slot) ∈ (producedAt g).entries.filterMap fun p =>
      ((groupOffsets placed).find? ((aliases g).find p.1)).map fun slot => (p.1, slot)) ↔
    (∃ start, (x, start) ∈ (producedAt g).entries) ∧
      (groupOffsets placed).find? ((aliases g).find x) = some slot := by
  rw [mem_filterMap]
  constructor
  · rintro ⟨p, hp, hslot⟩
    obtain ⟨w, hw, he⟩ := map_eq_some_iff.mp hslot
    cases he
    exact ⟨⟨p.2, hp⟩, hw⟩
  · rintro ⟨⟨start, hx⟩, hslot⟩
    exact ⟨(x, start), hx, by rw [hslot]; rfl⟩

theorem find?_offsets {slot : Int × Int} :
    (offsets g placed).find? x = some slot ↔ (∃ start, (x, start) ∈ (producedAt g).entries) ∧
      (groupOffsets placed).find? ((aliases g).find x) = some slot := by
  constructor
  · intro h
    exact mem_offsets.mp (SortedMap.mem_of_find?_ofList h)
  · intro h
    obtain ⟨w, l₁, l₂, hl, hw, -⟩ := SortedMap.find?_ofList_of_mem (mem_offsets.mpr h)
    have hmem := mem_append_right l₁ (mem_cons_self (a := (x, w)) (l := l₂))
    rw [← hl] at hmem
    have hsame := (mem_offsets.mp hmem).2
    rw [h.2] at hsame
    cases hsame
    exact hw

theorem exists_groupInterval {p : String × Int} (hp : p ∈ (producedAt g).entries) (hb : g.bytes p.1 = some b) :
    ∃ iv ∈ groupIntervals g, iv.name = (aliases g).find p.1 ∧
      iv.size = b ∧ iv.start ≤ p.2 ∧ lastOf g p.1 ≤ iv.last := by
  obtain ⟨s, hs, hstart, hlast⟩ := (groups_inv g).known p hp b hb
  exact ⟨⟨(aliases g).find p.1, s.size, s.start, s.last⟩, mem_groupIntervals.mpr hs, rfl,
    (groups_inv g).size_eq hb hs, hstart, hlast⟩

theorem groupInterval_unique {jv : Interval} (hi : iv ∈ groupIntervals g) (hj : jv ∈ groupIntervals g)
    (h : iv.name = jv.name) : iv = jv := by
  rw [mem_groupIntervals, h] at hi
  rw [mem_groupIntervals, hi] at hj
  cases iv
  cases jv
  cases h
  cases hj
  rfl

theorem Unshadowed.slot (h : Unshadowed attentionTiled g) {start : Int} (hx : (x, start) ∈ (producedAt g).entries)
    {slot : Int × Int}
    (hslot : (groupOffsets (place (planned attentionTiled g))).find? ((aliases g).find x) = some slot) :
    ∃ iv ∈ groupIntervals g, (iv, slot.1) ∈ place (planned attentionTiled g) ∧
      iv.name = (aliases g).find x ∧ slot.2 = iv.size ∧ g.bytes x = some iv.size ∧
      iv.start ≤ start ∧ lastOf g x ≤ iv.last := by
  obtain ⟨p, hp, hkey⟩ := List.mem_map.mp (SortedMap.mem_of_find?_ofList hslot)
  have hname : p.1.name = (aliases g).find x := congrArg Prod.fst hkey
  have hpslot : (p.2, p.1.size) = slot := congrArg Prod.snd hkey
  have hknown : ∃ b, g.bytes x = some b := by
    rcases mem_planned.mp (mem_of_place hp) with hgroup | hsynthetic
    · obtain ⟨q, -, hq, hroot⟩ := (groups_inv g).member _ _ (mem_groupIntervals.mp hgroup)
      rw [← bytes_of_find_eq (hroot.trans hname)]
      exact ⟨_, hq⟩
    · obtain ⟨b, hb, -⟩ := h p.1 hsynthetic (x, start) hx hname.symm
      exact ⟨b, hb⟩
  obtain ⟨b, hb⟩ := hknown
  obtain ⟨iv, hiv, hivname, hivsize, hstart, hlast⟩ := exists_groupInterval hx hb
  obtain ⟨jv, off, hfound, hjv, hjname, hjsize⟩ := slot_of_placed (mem_planned.mpr (.inl hiv))
  rw [hivname, hslot] at hfound
  cases hfound
  have hsame : jv = iv := by
    rcases mem_planned.mp (mem_of_place hjv) with hgroup | hsynthetic
    · exact groupInterval_unique hgroup hiv hjname
    · obtain ⟨c, hc, hlt⟩ := h jv hsynthetic (x, start) hx (hivname.symm.trans hjname.symm)
      rw [hb] at hc
      cases hc
      omega
  subst hsame
  exact ⟨jv, hiv, hjv, hivname, rfl, hivsize ▸ hb, hstart, hlast⟩

theorem Unshadowed.room (h : Unshadowed attentionTiled g) {start : Int} (hx : (x, start) ∈ (producedAt g).entries)
    (hb : g.bytes x = some b) :
    ∃ slot, (computeActivationMemoryPlan attentionTiled g).offsets.find? x = some slot ∧ 0 ≤ slot.1 ∧
      slot.1 + slot.2 ≤ (computeActivationMemoryPlan attentionTiled g).arenaBytes ∧ b ≤ slot.2 := by
  obtain ⟨iv, hiv, hname, -⟩ := exists_groupInterval hx hb
  have hplanned : iv ∈ planned attentionTiled g := mem_planned.mpr (.inl hiv)
  obtain ⟨jv, off, hfound, -⟩ := slot_of_placed hplanned
  rw [hname] at hfound
  obtain ⟨kv, -, hkv, -, hsize, hbytes, -⟩ := h.slot hx hfound
  rw [offsets_eq, arenaBytes_eq]
  refine ⟨_, find?_offsets.mpr ⟨⟨start, hx⟩, hfound⟩, (place_packed _).nonneg _ hkv, ?_, ?_⟩
  · rw [hsize]
    exact le_arenaOf hkv
  · rw [hb] at hbytes
    cases hbytes
    exact hsize.ge

theorem Unshadowed.apart (h : Unshadowed attentionTiled g) {slot slot' : Int × Int}
    (hx : (computeActivationMemoryPlan attentionTiled g).offsets.find? x = some slot)
    (hy : (computeActivationMemoryPlan attentionTiled g).offsets.find? y = some slot')
    (hne : (aliases g).find x ≠ (aliases g).find y) {i : Int} (hxi : Live g x i) (hyi : Live g y i) :
    Apart (slotRange slot) (slotRange slot') := by
  rw [offsets_eq, find?_offsets] at hx hy
  obtain ⟨s, hs, hsi, hxlast⟩ := hxi
  obtain ⟨t, ht, hti, hylast⟩ := hyi
  rw [SortedMap.find?_eq_some_iff] at hs ht
  obtain ⟨iv, -, hiv, hivname, hivsize, -, hivstart, hivlast⟩ := h.slot hs hx.2
  obtain ⟨jv, -, hjv, hjvname, hjvsize, -, hjvstart, hjvlast⟩ := h.slot ht hy.2
  have hdistinct : (iv, slot.1) ≠ (jv, slot'.1) := by
    intro he
    have hsame : iv = jv := congrArg Prod.fst he
    rw [← hsame] at hjvname
    exact hne (hivname.symm.trans hjvname)
  have hlive : ¬ iv.Disjoint jv := by
    rintro (hd | hd) <;> omega
  rw [slotRange, slotRange, hivsize, hjvsize]
  exact apart_of_place hiv hjv hdistinct hlive

theorem arenaBytes_le (h : Counted g) : (computeActivationMemoryPlan attentionTiled g).arenaBytes ≤
    (computeActivationMemoryPlan attentionTiled g).naiveBytes +
      ((synthetic attentionTiled g).map Interval.size).sum := by
  have hsizes : ∀ iv ∈ planned attentionTiled g, 0 ≤ iv.size := by
    intro iv hiv
    rcases mem_planned.mp hiv with hgroup | hsynthetic
    · obtain ⟨p, hp, hb, -⟩ := (groups_inv g).member _ _ (mem_groupIntervals.mp hgroup)
      exact h p hp _ hb
    · exact (synthetic_pos hsynthetic).le
  have hempty : GroupsInv g [] .empty := ⟨by simp, by simp⟩
  have hgroups : ((groupIntervals g).map Interval.size).sum ≤
      ((producedAt g).keys.filterMap g.bytes).sum := by
    have hfold := hempty.groupsSize_foldl h
    rw [groupIntervals, List.map_map]
    simpa [groupsSize, SortedMap.empty, groups, SortedMap.keys, Function.comp_def] using hfold
  have htotal : ((planned attentionTiled g).map Interval.size).sum =
      ((groupIntervals g).map Interval.size).sum +
        ((synthetic attentionTiled g).map Interval.size).sum := by
    rw [planned, intervals, append_assoc, map_append, sum_append]
    rfl
  have harena := arenaOf_le_total hsizes
  rw [arenaBytes_eq, naiveBytes_eq]
  omega

theorem soundPlan_of_unshadowed (hnames : Unshadowed attentionTiled g) (hsizes : Counted g) :
    SoundPlan attentionTiled g (computeActivationMemoryPlan attentionTiled g) where
  room x start b hx hb := hnames.room ((SortedMap.find?_eq_some_iff _ _ _).mp hx) hb
  apart x y slot slot' hx hy hne hlive := by
    obtain ⟨i, hxi, hyi⟩ := hlive
    exact hnames.apart hx hy hne hxi hyi
  live i := by
    rw [arenaBytes_eq]
    exact live_le_arenaOf _ i
  naive := arenaBytes_le hsizes

theorem not_soundPlan_of_undercut (h : Undercut attentionTiled g) :
    ¬ SoundPlan attentionTiled g (computeActivationMemoryPlan attentionTiled g) := by
  intro hsound
  obtain ⟨iv, hiv, p, hp, hname, b, hb, hlt⟩ := h
  obtain ⟨slot, hslot, -, -, hsize⟩ :=
    hsound.room p.1 p.2 b ((SortedMap.find?_eq_some_iff _ _ _).mpr hp) hb
  rw [offsets_eq, find?_offsets, hname] at hslot
  obtain ⟨jv, off, hfound, -, -, hjsize⟩ := slot_of_placed (mem_planned.mpr (.inr hiv))
  rw [hslot.2] at hfound
  cases hfound
  omega

/-- An attention node whose output has the name of its own workspace. -/
def namedLikeWorkspace : GraphView :=
  .mk [.mk "Attention" ["q"] ["#attn_workspace0"] [] (some 8)] ["q"] ["#attn_workspace0"] []
    fun _ => some 16

theorem namedLikeWorkspace_reported :
    (computeActivationMemoryPlan false namedLikeWorkspace).offsets.find? "#attn_workspace0" =
      some (32, 8) := by
  decide

end Onnxsim.Memory.Placement
