import Mathlib.Data.Finset.Card
import Onnxsim.Rewriter.Embeddings

namespace Onnxsim.Rewriter.Completeness

open List Option Embeddings Matching

variable {C V : Type} [DecidableEq C] [DecidableEq V] {pat : FunctionProto C V} {host : GraphProto C V}

theorem mem_of_lookup {α β : Type} [BEq α] [LawfulBEq α] {l : List (α × β)} {p : α} {k : β} (h : l.lookup p = some k) :
    (p, k) ∈ l := by
  obtain ⟨l₁, l₂, rfl, -⟩ := lookup_eq_some_iff.mp h
  exact mem_append_right _ mem_cons_self

variable {p k : Nat} {s s₁ s' : MatchState C V} {ts : List (String × String)} {t : String × String}

theorem lookup_cons_eq_some {l : List (Nat × Nat)} {h q : Nat} (hq : ((p, h) :: l).lookup q = some k) :
    (q = p ∧ k = h) ∨ (q ≠ p ∧ l.lookup q = some k) := by
  rw [lookup_cons] at hq
  split at hq
  · next heq =>
    cases hq
    exact Or.inl ⟨by simpa using heq, rfl⟩
  · next hne => exact Or.inr ⟨by simpa using hne, hq⟩

theorem enter_extends {h : Nat} (hnew : s.nodeMap.lookup p = none) (henter : enter pat host p h s = some s₁) :
    Extends (ofState s) (ofState s₁) := by
  obtain ⟨pnode, hnode, -, -, -, -, -, abind, habind, rfl⟩ := enter_eq_some henter
  exact ⟨fun _ _ hx => hx, (matchAttributes_spec habind).1, lookup_cons_of_none hnew⟩

/-- A list of operands that runs through extends the bindings, binds its operands, and every node it maps is right. -/
theorem runs_spec (h : Runs pat host ts s s') :
    Extends (ofState s) (ofState s') ∧ (∀ t ∈ ts, (ofState s').Operand pat host t.1 t.2) ∧
      ∀ p k, (ofState s').node p = some k → (ofState s).node p = some k ∨ (ofState s').NodeOk pat host p k := by
  induction h with
  | nil s => exact ⟨Extends.refl _, by simp, fun p k hp => Or.inl hp⟩
  | done hvisit hrest ih =>
    obtain ⟨hext, hmap, hoperand⟩ := visit_extends hvisit
    obtain ⟨hext', hoperands, hnodes⟩ := ih
    refine ⟨hext.trans hext', forall_mem_cons.mpr ⟨hoperand.mono hext', hoperands⟩, ?_⟩
    intro p k hp
    obtain hold | hok := hnodes p k hp
    · left
      unfold ofState at hold ⊢
      rwa [hmap] at hold
    · exact Or.inr hok
  | known hvisit hknown hrest ih =>
    obtain ⟨hext, hoperands, hnodes⟩ := ih
    exact ⟨hext, forall_mem_cons.mpr ⟨((visit_node hvisit).mpr hknown).mono hext, hoperands⟩, hnodes⟩
  | @node t ts p h inner s s₁ s₂ s' hvisit hnew henter horder hinner hrest ih₁ ih₂ =>
    obtain ⟨hext₁, hinnerOk, hnodes₁⟩ := ih₁
    obtain ⟨hext₂, hoperands, hnodes₂⟩ := ih₂
    have hext := enter_extends hnew henter
    obtain ⟨pnode, hnode, hp, hh, -, hop, hlen, abind, habind, rfl⟩ := enter_eq_some henter
    have hself : (ofState s₂).node p = some h := hext₁.node p h lookup_cons_self
    have hok : (ofState s').NodeOk pat host p h := by
      obtain ⟨pnode', hnode', hp', hh', order, hmem, rfl⟩ := mem_alternatives.mp horder
      rw [hp] at hp'
      rw [hh] at hh'
      cases hp'
      cases hh'
      refine ⟨pnode, hnode, hp, hh, hop, hlen, ?_, order, hmem, fun t ht => (hinnerOk t ht).mono hext₂⟩
      intro pa hpa
      exact Embedding.Attr.mono (hext₁.trans hext₂) ((matchAttributes_spec habind).2 pa hpa)
    refine ⟨(hext.trans hext₁).trans hext₂,
      forall_mem_cons.mpr ⟨(visit_node hvisit).mpr (hext₂.node _ _ hself), hoperands⟩, ?_⟩
    intro q k hq
    obtain hq₂ | hqok := hnodes₂ q k hq
    · obtain hq₁ | hqok := hnodes₁ q k hq₂
      · obtain ⟨rfl, rfl⟩ | ⟨-, hold⟩ := lookup_cons_eq_some hq₁
        · exact Or.inr hok
        · exact Or.inl hold
      · exact Or.inr (hqok.mono hext₂)
    · exact Or.inr hqok

def OneRole (s : MatchState C V) : Prop := ∀ p q k, (ofState s).node p = some k → (ofState s).node q = some k → p = q

theorem oneRole_enter {h : Nat} (henter : enter pat host p h s = some s₁) (hs : OneRole s) : OneRole s₁ := by
  obtain ⟨-, -, -, -, hfresh, -, -, abind, -, rfl⟩ := enter_eq_some henter
  have hcases : ∀ q k, ((p, h) :: s.nodeMap).lookup q = some k → (q = p ∧ k = h) ∨ (s.nodeMap.lookup q = some k ∧ k ≠ h) := by
    intro q k hq
    obtain hself | ⟨-, hold⟩ := lookup_cons_eq_some hq
    · exact Or.inl hself
    · exact Or.inr ⟨hold, hfresh _ (mem_of_lookup hold)⟩
  intro q r k hq hr
  obtain ⟨rfl, rfl⟩ | ⟨hq, hk⟩ := hcases q k hq
  · obtain ⟨rfl, -⟩ | ⟨-, hk⟩ := hcases r _ hr
    · rfl
    · exact absurd rfl hk
  · obtain ⟨-, rfl⟩ | ⟨hr, -⟩ := hcases r k hr
    · exact absurd rfl hk
    · exact hs q r k hq hr

theorem oneRole_runs (h : Runs pat host ts s s') (hs : OneRole s) : OneRole s' := by
  induction h with
  | nil s => exact hs
  | done hvisit hrest ih =>
    apply ih
    unfold OneRole ofState at hs ⊢
    rw [(visit_extends hvisit).2.1]
    exact hs
  | known hvisit hknown hrest ih => exact ih hs
  | node hvisit hnew henter horder hinner hrest ih₁ ih₂ => exact ih₂ (ih₁ (oneRole_enter henter hs))

theorem embeddable_of_runs {root h : Nat} {tasks : List (String × String)}
    (henter : enter pat host root h ⟨[], [], []⟩ = some s) (horder : tasks ∈ alternatives pat host root h)
    (hrun : Runs pat host tasks s s') : Embeddable pat host root h := by
  obtain ⟨hext, hoperands, hnodes⟩ := runs_spec hrun
  have hs : OneRole s := oneRole_enter henter (fun _ _ _ hp => by cases hp)
  obtain ⟨pnode, hnode, hp, hh, -, hop, hlen, abind, habind, rfl⟩ := enter_eq_some henter
  have hself : (ofState s').node root = some h := hext.node root h lookup_cons_self
  refine ⟨ofState s', hself, oneRole_runs hrun hs, ?_⟩
  intro p k hpk
  obtain hroot | hok := hnodes p k hpk
  · obtain ⟨rfl, rfl⟩ | ⟨-, hnone⟩ := lookup_cons_eq_some hroot
    swap
    · cases hnone
    obtain ⟨pnode', hnode', hp', hh', order, hmem, rfl⟩ := mem_alternatives.mp horder
    rw [hp] at hp'
    rw [hh] at hh'
    cases hp'
    cases hh'
    exact ⟨pnode, hnode, hp, hh, hop, hlen,
      fun pa hpa => Embedding.Attr.mono hext ((matchAttributes_spec habind).2 pa hpa), order, hmem, hoperands⟩
  · exact hok

/-- A state binds nothing but what the embedding says. -/
structure Within (s : MatchState C V) (e : Embedding C V) : Prop where
  value : ∀ kv ∈ s.vbind, e.value kv.1 = some kv.2
  attr : ∀ kv ∈ s.abind, e.attr kv.1 = some kv.2
  node : ∀ kv ∈ s.nodeMap, e.node kv.1 = some kv.2

variable {e : Embedding C V}

omit [DecidableEq V] in
theorem visit_within (hs : Within s e) (ht : e.Operand pat host t.1 t.2) :
    (∃ s₁, visit pat host t s = some (.inl s₁) ∧ Within s₁ e ∧ s₁.nodeMap = s.nodeMap) ∨
      ∃ p k, visit pat host t s = some (.inr (p, k)) ∧ e.node p = some k := by
  unfold visit
  obtain hblank | ⟨hp, hh, ⟨hin, hvalue⟩ | ⟨hin, p, slot, hprod, ⟨hnone, hconst⟩ | ⟨k, hk, hnode⟩⟩⟩ := ht
  · rw [if_pos (Or.inl hblank.1), if_pos hblank]
    exact Or.inl ⟨s, rfl, hs, rfl⟩
  · rw [if_neg (by simp [hp, hh]), if_pos hin]
    left
    cases hbound : s.vbind.lookup t.1 with
    | some bound =>
      have hsame := hs.value _ (mem_of_lookup hbound)
      rw [hvalue] at hsame
      obtain rfl := Option.some.inj hsame
      exact ⟨s, if_pos rfl, hs, rfl⟩
    | none =>
      refine ⟨_, rfl, ⟨?_, hs.attr, hs.node⟩, rfl⟩
      exact forall_mem_cons.mpr ⟨hvalue, hs.value⟩
  · rw [if_neg (by simp [hp, hh]), if_neg hin, hprod]
    rw [hnone]
    dsimp only
    rw [if_pos hconst]
    exact Or.inl ⟨s, rfl, hs, rfl⟩
  · rw [if_neg (by simp [hp, hh]), if_neg hin, hprod]
    rw [hk]
    dsimp only
    rw [if_neg (by simp)]
    exact Or.inr ⟨p, k, rfl, hnode⟩

theorem matchAttributes_within {hnode : NodeProto C V} {attributes : List (AttributeProto C V)}
    {abind : List (String × AttributeProto C V)} (hs : ∀ kv ∈ abind, e.attr kv.1 = some kv.2)
    (h : ∀ pa ∈ attributes, e.Attr hnode pa) :
    ∃ abind', attributes.foldlM (matchAttribute hnode) abind = some abind' ∧ ∀ kv ∈ abind', e.attr kv.1 = some kv.2 := by
  induction attributes generalizing abind with
  | nil => exact ⟨abind, rfl, hs⟩
  | cons pa attributes ih =>
    rw [forall_mem_cons] at h
    obtain ⟨ha, hfind, hpa⟩ := h.1
    have hone : ∃ abind₁, matchAttribute hnode abind pa = some abind₁ ∧ ∀ kv ∈ abind₁, e.attr kv.1 = some kv.2 := by
      unfold matchAttribute
      rw [hfind]
      dsimp only
      obtain ⟨href, hattr⟩ | ⟨href, rfl⟩ := hpa
      · rw [if_pos href]
        cases hbound : abind.lookup pa.refAttrName with
        | some bound =>
          have hsame := hs _ (mem_of_lookup hbound)
          rw [hattr] at hsame
          obtain rfl := Option.some.inj hsame
          exact ⟨abind, if_pos rfl, hs⟩
        | none => exact ⟨_, rfl, forall_mem_cons.mpr ⟨hattr, hs⟩⟩
      · rw [if_neg (by simp [href]), if_pos rfl]
        exact ⟨abind, rfl, hs⟩
    obtain ⟨abind₁, h₁, hs₁⟩ := hone
    obtain ⟨abind', h', hs'⟩ := ih hs₁ h.2
    refine ⟨abind', ?_, hs'⟩
    rw [foldlM_cons, h₁]
    exact h'

theorem enter_within (hs : Within s e) (hinj : ∀ p q k, e.node p = some k → e.node q = some k → p = q)
    (hnew : s.nodeMap.lookup p = none) (hpk : e.node p = some k) (hok : e.NodeOk pat host p k) :
    ∃ s₁, enter pat host p k s = some s₁ ∧ Within s₁ e ∧
      ∃ tasks ∈ alternatives pat host p k, ∀ t ∈ tasks, e.Operand pat host t.1 t.2 := by
  obtain ⟨pnode, hnode, hp, hk, hop, hlen, hattrs, order, horder, hoperands⟩ := hok
  obtain ⟨abind, habind, hwithin⟩ := matchAttributes_within hs.attr hattrs
  have hfresh : ¬ ∃ kv ∈ s.nodeMap, kv.2 = k := by
    rintro ⟨kv, hkv, rfl⟩
    exact bne_iff_ne.mp (lookup_eq_none_iff.mp hnew kv hkv) (hinj _ _ _ (hs.node kv hkv) hpk).symm
  refine ⟨{ s with abind := abind, nodeMap := (p, k) :: s.nodeMap }, ?_, ⟨hs.value, hwithin, ?_⟩, _,
    mem_alternatives.mpr ⟨pnode, hnode, hp, hk, order, horder, rfl⟩, hoperands⟩
  · rw [enter, hp, hk]
    dsimp only
    rw [if_neg (by simp [hfresh, hop, hlen]), matchAttributes, habind]
    rfl
  · exact forall_mem_cons.mpr ⟨hpk, hs.node⟩

def unmapped (pat : FunctionProto C V) (s : MatchState C V) : Nat :=
  ((Finset.range pat.node.length).filter fun p => s.nodeMap.lookup p = none).card

omit [DecidableEq C] [DecidableEq V] in
theorem unmapped_le (h : Extends (ofState s) (ofState s')) : unmapped pat s' ≤ unmapped pat s := by
  apply Finset.card_le_card
  intro p hp
  rw [Finset.mem_filter] at hp ⊢
  refine ⟨hp.1, ?_⟩
  cases hl : s.nodeMap.lookup p with
  | none => rfl
  | some k =>
    have := h.node p k hl
    rw [show (ofState s').node p = none from hp.2] at this
    cases this

theorem unmapped_enter (hnew : s.nodeMap.lookup p = none) (henter : enter pat host p k s = some s₁) :
    unmapped pat s₁ < unmapped pat s := by
  have hext := enter_extends hnew henter
  obtain ⟨pnode, -, hp, -, -, -, -, abind, -, rfl⟩ := enter_eq_some henter
  apply Finset.card_lt_card
  rw [Finset.ssubset_iff_of_subset]
  · refine ⟨p, Finset.mem_filter.mpr ⟨Finset.mem_range.mpr (List.getElem?_eq_some_iff.mp hp).1, hnew⟩, ?_⟩
    rw [Finset.mem_filter]
    rintro ⟨-, hnone⟩
    rw [lookup_cons_self] at hnone
    cases hnone
  · intro q hq
    rw [Finset.mem_filter] at hq ⊢
    refine ⟨hq.1, ?_⟩
    cases hl : s.nodeMap.lookup q with
    | none => rfl
    | some k' =>
      have h' := hext.node q k' hl
      have hnone := hq.2
      rw [show List.lookup q ((p, k) :: s.nodeMap) = some k' from h'] at hnone
      cases hnone

theorem exists_runs (hinj : ∀ p q k, e.node p = some k → e.node q = some k → p = q)
    (hnodes : ∀ p k, e.node p = some k → e.NodeOk pat host p k) (n : Nat) (hn : unmapped pat s < n) (hs : Within s e)
    (hts : ∀ t ∈ ts, e.Operand pat host t.1 t.2) : ∃ s', Runs pat host ts s s' ∧ Within s' e := by
  induction n generalizing s ts with
  | zero => omega
  | succ n ih =>
    induction ts generalizing s with
    | nil => exact ⟨s, Runs.nil s, hs⟩
    | cons t ts ihts =>
      rw [forall_mem_cons] at hts
      obtain ⟨s₁, hvisit, hs₁, hmap⟩ | ⟨p, k, hvisit, hpk⟩ := visit_within hs hts.1
      · obtain ⟨s', hrun, hs'⟩ := ihts (by rw [unmapped, hmap]; exact hn) hs₁ hts.2
        exact ⟨s', Runs.done hvisit hrun, hs'⟩
      · cases hl : s.nodeMap.lookup p with
        | some k' =>
          have hsame := hs.node _ (mem_of_lookup hl)
          rw [hpk] at hsame
          obtain rfl := Option.some.inj hsame
          obtain ⟨s', hrun, hs'⟩ := ihts hn hs hts.2
          exact ⟨s', Runs.known hvisit hl hrun, hs'⟩
        | none =>
          obtain ⟨s₁, henter, hs₁, inner, horder, hinner⟩ := enter_within hs hinj hl hpk (hnodes p k hpk)
          have hless := unmapped_enter hl henter
          obtain ⟨s₂, hrun₁, hs₂⟩ := ih (by omega) hs₁ hinner
          have hmore : unmapped pat s₂ ≤ unmapped pat s₁ := unmapped_le (runs_spec hrun₁).1
          obtain ⟨s', hrun₂, hs'⟩ := ihts (by omega) hs₂ hts.2
          exact ⟨s', Runs.node hvisit hl henter horder hrun₁ hrun₂, hs'⟩

theorem runs_of_embeddable {root h : Nat} (hembed : Embeddable pat host root h) :
    ∃ s tasks s', enter pat host root h ⟨[], [], []⟩ = some s ∧ tasks ∈ alternatives pat host root h ∧
      Runs pat host tasks s s' := by
  obtain ⟨e, hroot, hinj, hnodes⟩ := hembed
  have hempty : Within (⟨[], [], []⟩ : MatchState C V) e := ⟨by simp, by simp, by simp⟩
  obtain ⟨s, henter, hs, tasks, horder, hoperands⟩ := enter_within hempty hinj rfl hroot (hnodes root h hroot)
  obtain ⟨s', hrun, -⟩ := exists_runs hinj hnodes (unmapped pat s + 1) (Nat.lt_succ_self _) hs hoperands
  exact ⟨s, tasks, s', henter, horder, hrun⟩

/-- What a call for a node that the matcher comes to leaves behind. -/
def Visited (pat : FunctionProto C V) (host : GraphProto C V) (p k : Nat) (s s' : MatchState C V) : Prop :=
  (s.nodeMap.lookup p = some k ∧ s' = s) ∨ (s.nodeMap.lookup p = none ∧ ∃ s₁ inner, enter pat host p k s = some s₁ ∧
    inner ∈ alternatives pat host p k ∧ Runs pat host inner s₁ s')

theorem runs_cons (hvisit : visit pat host t s = some (.inr (p, k))) (hnode : Visited pat host p k s s₁)
    (hrest : Runs pat host ts s₁ s') :
    Runs pat host (t :: ts) s s' := by
  obtain ⟨hknown, rfl⟩ | ⟨hnew, s₀, inner, henter, horder, hinner⟩ := hnode
  · exact Runs.known hvisit hknown hrest
  · exact Runs.node hvisit hnew henter horder hinner hrest

theorem runs_of_foldlM {rec : Nat → Nat → MatchState C V → Option (MatchState C V)}
    (hrec : ∀ p k s s', rec p k s = some s' → Visited pat host p k s s')
    (h : ts.foldlM (matchInput pat host rec) s = some s') : Runs pat host ts s s' := by
  induction ts generalizing s with
  | nil =>
    cases h
    exact Runs.nil _
  | cons t ts ih =>
    rw [foldlM_cons] at h
    obtain ⟨s₁, hfirst, h⟩ := bind_eq_some_iff.mp h
    rw [matchInput_eq] at hfirst
    obtain ⟨v, hvisit, hv⟩ := bind_eq_some_iff.mp hfirst
    cases v with
    | inl s₀ =>
      cases hv
      exact Runs.done hvisit (ih h)
    | inr q =>
      obtain ⟨p, k⟩ := q
      exact runs_cons hvisit (hrec p k s s₁ hv) (ih h)

theorem visited_of_matchNode {fuel : Nat} (h : matchNode pat host fuel p k s = some s') :
    Visited pat host p k s s' := by
  induction fuel generalizing p k s s' with
  | zero => cases h
  | succ fuel ih =>
    rw [matchNode] at h
    split at h
    · next k' hknown =>
      split at h
      · next heq =>
        cases h
        subst heq
        exact Or.inl ⟨hknown, rfl⟩
      · cases h
    · next hnew =>
      obtain ⟨s₁, henter, h⟩ := bind_eq_some_iff.mp h
      obtain ⟨inner, horder, hfold⟩ := exists_of_findSome?_eq_some h
      exact Or.inr ⟨hnew, s₁, inner, henter, horder, runs_of_foldlM (fun p k s s' hp => ih hp) hfold⟩

theorem visited_cases (h : Runs pat host (t :: ts) s s') :
    (∃ s₁, visit pat host t s = some (.inl s₁) ∧ Runs pat host ts s₁ s') ∨
      ∃ p k s₁, visit pat host t s = some (.inr (p, k)) ∧ Visited pat host p k s s₁ ∧ Runs pat host ts s₁ s' := by
  cases h with
  | done hvisit hrest => exact Or.inl ⟨_, hvisit, hrest⟩
  | known hvisit hknown hrest => exact Or.inr ⟨_, _, _, hvisit, Or.inl ⟨hknown, rfl⟩, hrest⟩
  | node hvisit hnew henter horder hinner hrest =>
    exact Or.inr ⟨_, _, _, hvisit, Or.inr ⟨hnew, _, _, henter, horder, hinner⟩, hrest⟩

theorem unmapped_runs (h : Runs pat host ts s s') : unmapped pat s' ≤ unmapped pat s := unmapped_le (runs_spec h).1

variable {root h : Nat}

/-- When the order of operands that is found first serves as well as any other, the matcher runs through whatever can be. -/
theorem foldlM_of_runs (hindep : Indifferent pat host root h) {fuel : Nat} (hfuel : unmapped pat s < fuel)
    (hreach : Reaches pat host root h ts s) (hrun : ∃ s', Runs pat host ts s s') :
    ∃ s', ts.foldlM (matchInput pat host (matchNode pat host fuel)) s = some s' := by
  induction fuel generalizing ts s with
  | zero => omega
  | succ fuel ih =>
    induction ts generalizing s with
    | nil => exact ⟨s, rfl⟩
    | cons t ts ihts =>
      rw [foldlM_cons, matchInput_eq]
      obtain ⟨s', hrun⟩ := hrun
      obtain ⟨s₁, hvisit, hrest⟩ | ⟨p, k, s₁, hvisit, hnode, hrest⟩ := visited_cases hrun
      · have hfirst : Runs pat host [t] s s₁ := Runs.done hvisit (Runs.nil s₁)
        have hmore := unmapped_runs hfirst
        rw [hvisit]
        exact ihts (by omega) (Reaches.next hreach hfirst) ⟨s', hrest⟩
      · rw [hvisit]
        show ∃ s', (matchNode pat host (fuel + 1) p k s).bind _ = some s'
        have hmatch : ∃ s₂, matchNode pat host (fuel + 1) p k s = some s₂ := by
          rw [matchNode]
          obtain ⟨hknown, -⟩ | ⟨hnew, s₀, inner, henter, horder, hinner⟩ := hnode
          · rw [hknown]
            exact ⟨s, if_pos rfl⟩
          · have hless := unmapped_enter hnew henter
            obtain ⟨s₂, hfold⟩ := ih (by omega) (Reaches.inner hreach hvisit hnew henter horder) ⟨s₁, hinner⟩
            rw [hnew]
            rw [henter, bind_some, ← isSome_iff_exists, findSome?_isSome_iff]
            exact ⟨inner, horder, isSome_iff_exists.mpr ⟨s₂, hfold⟩⟩
        obtain ⟨s₂, hmatch⟩ := hmatch
        have hfirst : Runs pat host [t] s s₁ := runs_cons hvisit hnode (Runs.nil s₁)
        have hfirst' : Runs pat host [t] s s₂ := runs_cons hvisit (visited_of_matchNode hmatch) (Runs.nil s₂)
        have hmore := unmapped_runs hfirst'
        rw [hmatch]
        exact ihts (by omega) (Reaches.next hreach hfirst') (hindep t ts s s₁ s₂ hreach hfirst hfirst' ⟨s', hrest⟩)

theorem embeddable_of_match (hmatch : matchRoot pat host root h = some s') : Embeddable pat host root h := by
  obtain ⟨hknown, -⟩ | ⟨-, s, inner, henter, horder, hinner⟩ := visited_of_matchNode hmatch
  · cases hknown
  · exact embeddable_of_runs henter horder hinner

theorem match_iff_embeddable (hindep : Indifferent pat host root h) :
    (matchRoot pat host root h).isSome = true ↔ Embeddable pat host root h := by
  constructor
  · intro hsome
    obtain ⟨s', hmatch⟩ := isSome_iff_exists.mp hsome
    exact embeddable_of_match hmatch
  · intro hembed
    obtain ⟨s, tasks, s', henter, horder, hrun⟩ := runs_of_embeddable hembed
    have hbound : unmapped pat (⟨[], [], []⟩ : MatchState C V) ≤ pat.node.length := by
      calc unmapped pat (⟨[], [], []⟩ : MatchState C V) ≤ (Finset.range pat.node.length).card := Finset.card_filter_le _ _
        _ = pat.node.length := Finset.card_range _
    have hless := unmapped_enter rfl henter
    obtain ⟨s₂, hfold⟩ := foldlM_of_runs hindep (show unmapped pat s < pat.node.length by omega)
      (Reaches.root henter horder) ⟨s', hrun⟩
    rw [matchRoot, matchNode]
    show ((enter pat host root h ⟨[], [], []⟩).bind _).isSome = true
    rw [henter, bind_some, findSome?_isSome_iff]
    exact ⟨tasks, horder, isSome_iff_exists.mpr ⟨s₂, hfold⟩⟩

end Onnxsim.Rewriter.Completeness
