import Onnxsim.Rewriter.Matching

namespace Onnxsim.Rewriter.Embeddings

open List Matching

variable {C V : Type} [DecidableEq C] [DecidableEq V] {pat : FunctionProto C V} {host : GraphProto C V}

/-- What the names and the nodes of a pattern stand for. -/
structure Embedding (C V : Type) where
  value : String → Option String
  attr : String → Option (AttributeProto C V)
  node : Nat → Option Nat

def Embedding.Operand (e : Embedding C V) (pat : FunctionProto C V) (host : GraphProto C V) (pval hval : String) : Prop :=
  (pval = "" ∧ hval = "") ∨ (pval ≠ "" ∧ hval ≠ "" ∧
    ((pval ∈ pat.input ∧ e.value pval = some hval) ∨ (pval ∉ pat.input ∧ ∃ p slot, producer pat.node pval = some (p, slot) ∧
      ((producer host.node hval = none ∧ ∃ pnode ∈ pat.node[p]?, constantMatches pnode (initializerOf host hval) = true) ∨
        ∃ h, producer host.node hval = some (h, slot) ∧ e.node p = some h))))

def Embedding.Attr (e : Embedding C V) (hnode : NodeProto C V) (pa : AttributeProto C V) : Prop :=
  ∃ ha, findAttr hnode pa.name = some ha ∧
    ((pa.refAttrName ≠ "" ∧ e.attr pa.refAttrName = some { ha with name := "" }) ∨ (pa.refAttrName = "" ∧ pa = ha))

/-- A node of the pattern stands for one of the host, whose operands are taken in some order. -/
def Embedding.NodeOk (e : Embedding C V) (pat : FunctionProto C V) (host : GraphProto C V) (p h : Nat) : Prop :=
  ∃ pnode hnode, pat.node[p]? = some pnode ∧ host.node[h]? = some hnode ∧ sameOp pnode hnode = true ∧
    pnode.input.length = hnode.input.length ∧ (∀ pa ∈ pnode.attributes, e.Attr hnode pa) ∧
    ∃ order ∈ orders pnode, ∀ t ∈ operands pnode hnode order, e.Operand pat host t.1 t.2

structure Embeds (pat : FunctionProto C V) (host : GraphProto C V) (root h : Nat) (e : Embedding C V) : Prop where
  root_node : e.node root = some h
  injective : ∀ p q k, e.node p = some k → e.node q = some k → p = q
  nodes : ∀ p k, e.node p = some k → e.NodeOk pat host p k

def Embeddable (pat : FunctionProto C V) (host : GraphProto C V) (root h : Nat) : Prop := ∃ e, Embeds pat host root h e

/-- The host with the operands of some commutative nodes swapped. -/
def swapOperands (chosen : Nat → Bool) (host : GraphProto C V) : GraphProto C V :=
  { host with
    node := host.node.mapIdx fun i n =>
      if chosen i = true ∧ n.input.length = 2 ∧ isCommutative n = true then { n with input := n.input.reverse } else n }

/-- What the matcher does with an operand before it turns to a node. -/
def visit (pat : FunctionProto C V) (host : GraphProto C V) (operand : String × String) (s : MatchState C V) :
    Option (MatchState C V ⊕ (Nat × Nat)) :=
  if operand.1 = "" ∨ operand.2 = "" then if operand.1 = "" ∧ operand.2 = "" then some (.inl s) else none
  else if operand.1 ∈ pat.input then
    match s.vbind.lookup operand.1 with
    | some bound => if bound = operand.2 then some (.inl s) else none
    | none => some (.inl { s with vbind := (operand.1, operand.2) :: s.vbind })
  else
    match producer pat.node operand.1 with
    | none => none
    | some (p, slot) =>
      match producer host.node operand.2 with
      | none =>
        if ∃ pnode ∈ pat.node[p]?, constantMatches pnode (initializerOf host operand.2) = true then some (.inl s) else none
      | some (h, slot') => if slot' ≠ slot then none else some (.inr (p, h))

omit [DecidableEq V] in
theorem matchInput_eq (rec : Nat → Nat → MatchState C V → Option (MatchState C V)) (s : MatchState C V)
    (operand : String × String) :
    matchInput pat host rec s operand = (visit pat host operand s).bind fun v => v.elim some fun q => rec q.1 q.2 s := by
  unfold matchInput matchValue visit
  split
  · split <;> rfl
  · split
    · cases s.vbind.lookup operand.1 with
      | none => rfl
      | some bound =>
        dsimp only
        split <;> rfl
    · cases producer pat.node operand.1 with
      | none => rfl
      | some q =>
        cases producer host.node operand.2 with
        | none =>
          dsimp only
          split <;> rfl
        | some r =>
          dsimp only
          split <;> rfl

/-- Matching a list of operands, with any order of the operands of every node. -/
inductive Runs (pat : FunctionProto C V) (host : GraphProto C V) :
    List (String × String) → MatchState C V → MatchState C V → Prop where
  | nil (s) : Runs pat host [] s s
  | done {t ts s s₁ s'} (hvisit : visit pat host t s = some (.inl s₁)) (hrest : Runs pat host ts s₁ s') :
    Runs pat host (t :: ts) s s'
  | known {t ts p h s s'} (hvisit : visit pat host t s = some (.inr (p, h))) (hknown : s.nodeMap.lookup p = some h)
    (hrest : Runs pat host ts s s') : Runs pat host (t :: ts) s s'
  | node {t ts p h inner s s₁ s₂ s'} (hvisit : visit pat host t s = some (.inr (p, h)))
    (hnew : s.nodeMap.lookup p = none) (henter : enter pat host p h s = some s₁) (horder : inner ∈ alternatives pat host p h)
    (hinner : Runs pat host inner s₁ s₂) (hrest : Runs pat host ts s₂ s') : Runs pat host (t :: ts) s s'

/-- The lists of operands that are left when the matcher comes to them. -/
inductive Reaches (pat : FunctionProto C V) (host : GraphProto C V) (root h : Nat) :
    List (String × String) → MatchState C V → Prop where
  | root {s tasks} (henter : enter pat host root h ⟨[], [], []⟩ = some s) (horder : tasks ∈ alternatives pat host root h) :
    Reaches pat host root h tasks s
  | inner {t ts p k s s₁ tasks} (hreach : Reaches pat host root h (t :: ts) s)
    (hvisit : visit pat host t s = some (.inr (p, k))) (hnew : s.nodeMap.lookup p = none)
    (henter : enter pat host p k s = some s₁) (horder : tasks ∈ alternatives pat host p k) : Reaches pat host root h tasks s₁
  | next {t ts s s₁} (hreach : Reaches pat host root h (t :: ts) s) (hrun : Runs pat host [t] s s₁) :
    Reaches pat host root h ts s₁

/-- Whether the operands behind one can be matched does not depend on how that one was. -/
def Indifferent (pat : FunctionProto C V) (host : GraphProto C V) (root h : Nat) : Prop :=
  ∀ t ts s s₁ s₂, Reaches pat host root h (t :: ts) s → Runs pat host [t] s s₁ → Runs pat host [t] s s₂ →
    (∃ s', Runs pat host ts s₁ s') → ∃ s', Runs pat host ts s₂ s'

variable {s s₁ : MatchState C V} {p : Nat}

theorem enter_eq_some {h : Nat} (henter : enter pat host p h s = some s₁) :
    ∃ pnode hnode, pat.node[p]? = some pnode ∧ host.node[h]? = some hnode ∧ (∀ kv ∈ s.nodeMap, kv.2 ≠ h) ∧
      sameOp pnode hnode = true ∧ pnode.input.length = hnode.input.length ∧
      ∃ abind, matchAttributes pnode hnode s.abind = some abind ∧
        s₁ = { s with abind := abind, nodeMap := (p, h) :: s.nodeMap } := by
  unfold enter at henter
  split at henter
  · next pnode hnode hp hh =>
    split at henter
    · cases henter
    · next hguard =>
      push Not at hguard
      obtain ⟨hfresh, hop, hlen⟩ := hguard
      obtain ⟨abind, habind, rfl⟩ := Option.map_eq_some_iff.mp henter
      exact ⟨pnode, hnode, hp, hh, hfresh, by simpa using hop, hlen, abind, habind, rfl⟩
  · cases henter

omit [DecidableEq C] [DecidableEq V] in
theorem mem_alternatives {h : Nat} {tasks : List (String × String)} :
    tasks ∈ alternatives pat host p h ↔ ∃ pnode hnode, pat.node[p]? = some pnode ∧ host.node[h]? = some hnode ∧
      ∃ order ∈ orders pnode, operands pnode hnode order = tasks := by
  unfold alternatives
  constructor
  · intro hmem
    split at hmem
    · next pnode hnode hp hh =>
      obtain ⟨order, horder, rfl⟩ := List.mem_map.mp hmem
      exact ⟨pnode, hnode, hp, hh, order, horder, rfl⟩
    · cases hmem
  · rintro ⟨pnode, hnode, hp, hh, order, horder, rfl⟩
    rw [hp, hh]
    exact List.mem_map_of_mem horder

def ofState (s : MatchState C V) : Embedding C V :=
  ⟨fun x => s.vbind.lookup x, fun x => s.abind.lookup x, fun p => s.nodeMap.lookup p⟩

/-- One embedding says what the other says, and maybe more. -/
structure Extends (e e' : Embedding C V) : Prop where
  value : ∀ x v, e.value x = some v → e'.value x = some v
  attr : ∀ x a, e.attr x = some a → e'.attr x = some a
  node : ∀ p k, e.node p = some k → e'.node p = some k

omit [DecidableEq C] [DecidableEq V] in
theorem Extends.refl (e : Embedding C V) : Extends e e := ⟨fun _ _ h => h, fun _ _ h => h, fun _ _ h => h⟩

variable {e e' : Embedding C V} {hnode : NodeProto C V} {pa : AttributeProto C V} {k : Nat}
    {abind' abind : List (String × AttributeProto C V)} {t : String × String}

omit [DecidableEq C] [DecidableEq V] in
theorem Extends.trans {e'' : Embedding C V} (h : Extends e e') (h' : Extends e' e'') : Extends e e'' :=
  ⟨fun x v hx => h'.value x v (h.value x v hx), fun x a hx => h'.attr x a (h.attr x a hx),
    fun p k hp => h'.node p k (h.node p k hp)⟩

theorem lookup_cons_of_none {α β : Type} [BEq α] [LawfulBEq α] {l : List (α × β)} {x : α} {v : β}
    (hnone : l.lookup x = none) (y : α) (w : β) (h : l.lookup y = some w) : ((x, v) :: l).lookup y = some w := by
  rw [lookup_cons]
  by_cases hyx : y = x
  · subst hyx
    rw [hnone] at h
    cases h
  · have hne : (y == x) = false := by simpa using hyx
    rw [hne]
    exact h

omit [DecidableEq V] in
theorem Embedding.Operand.mono (hext : Extends e e') {pval hval : String} (h : e.Operand pat host pval hval) :
    e'.Operand pat host pval hval := by
  obtain hblank | ⟨hp, hh, hvalue | ⟨hin, p, slot, hprod, hconst | ⟨k, hk, hnode⟩⟩⟩ := h
  · exact Or.inl hblank
  · exact Or.inr ⟨hp, hh, Or.inl ⟨hvalue.1, hext.value _ _ hvalue.2⟩⟩
  · exact Or.inr ⟨hp, hh, Or.inr ⟨hin, p, slot, hprod, Or.inl hconst⟩⟩
  · exact Or.inr ⟨hp, hh, Or.inr ⟨hin, p, slot, hprod, Or.inr ⟨k, hk, hext.node _ _ hnode⟩⟩⟩

omit [DecidableEq C] [DecidableEq V] in
theorem Embedding.Attr.mono (hext : Extends e e') (h : e.Attr hnode pa) : e'.Attr hnode pa := by
  obtain ⟨ha, hfind, ⟨href, hattr⟩ | hconcrete⟩ := h
  · exact ⟨ha, hfind, Or.inl ⟨href, hext.attr _ _ hattr⟩⟩
  · exact ⟨ha, hfind, Or.inr hconcrete⟩

omit [DecidableEq V] in
theorem Embedding.NodeOk.mono (hext : Extends e e') (h : e.NodeOk pat host p k) : e'.NodeOk pat host p k := by
  obtain ⟨pnode, hnode, hp, hk, hop, hlen, hattrs, order, horder, hoperands⟩ := h
  exact ⟨pnode, hnode, hp, hk, hop, hlen, fun pa hpa => (hattrs pa hpa).mono hext, order, horder,
    fun t ht => (hoperands t ht).mono hext⟩

theorem matchAttribute_spec (h : matchAttribute hnode abind pa = some abind') :
    (∀ x a, abind.lookup x = some a → abind'.lookup x = some a) ∧ ∃ ha, findAttr hnode pa.name = some ha ∧
      ((pa.refAttrName ≠ "" ∧ abind'.lookup pa.refAttrName = some { ha with name := "" }) ∨
        (pa.refAttrName = "" ∧ pa = ha)) := by
  unfold matchAttribute at h
  split at h
  · cases h
  · next ha hfind =>
    split at h
    · next href =>
      split at h
      · next bound hbound =>
        split at h
        · next heq =>
          cases h
          subst heq
          exact ⟨fun _ _ hx => hx, ha, hfind, Or.inl ⟨href, hbound⟩⟩
        · cases h
      · next hnone =>
        cases h
        exact ⟨lookup_cons_of_none hnone, ha, hfind, Or.inl ⟨href, lookup_cons_self⟩⟩
    · next href =>
      split at h
      · next heq =>
        cases h
        exact ⟨fun _ _ hx => hx, ha, hfind, Or.inr ⟨not_not.mp href, heq⟩⟩
      · cases h

theorem matchAttributes_spec {attributes : List (AttributeProto C V)}
    (h : attributes.foldlM (matchAttribute hnode) abind = some abind') :
    (∀ x a, abind.lookup x = some a → abind'.lookup x = some a) ∧ ∀ pa ∈ attributes, ∃ ha, findAttr hnode pa.name = some ha ∧
      ((pa.refAttrName ≠ "" ∧ abind'.lookup pa.refAttrName = some { ha with name := "" }) ∨
        (pa.refAttrName = "" ∧ pa = ha)) := by
  induction attributes generalizing abind with
  | nil =>
    cases h
    exact ⟨fun _ _ hx => hx, by simp⟩
  | cons pa attributes ih =>
    rw [foldlM_cons] at h
    obtain ⟨abind₁, h₁, h⟩ := Option.bind_eq_some_iff.mp h
    obtain ⟨hkeep, ha, hfind, hpa⟩ := matchAttribute_spec h₁
    obtain ⟨hkeep', hrest⟩ := ih h
    refine ⟨fun x a hx => hkeep' x a (hkeep x a hx), ?_⟩
    rw [forall_mem_cons]
    refine ⟨⟨ha, hfind, ?_⟩, hrest⟩
    obtain ⟨href, hbound⟩ | hconcrete := hpa
    · exact Or.inl ⟨href, hkeep' _ _ hbound⟩
    · exact Or.inr hconcrete

omit [DecidableEq V] in
theorem visit_extends (h : visit pat host t s = some (.inl s₁)) :
    Extends (ofState s) (ofState s₁) ∧ s₁.nodeMap = s.nodeMap ∧ (ofState s₁).Operand pat host t.1 t.2 := by
  unfold visit at h
  split at h
  · split at h
    · next hblank =>
      cases h
      exact ⟨Extends.refl _, rfl, Or.inl hblank⟩
    · cases h
  · next hblank =>
    push Not at hblank
    split at h
    · next hin =>
      split at h
      · next bound hbound =>
        split at h
        · next heq =>
          cases h
          subst heq
          exact ⟨Extends.refl _, rfl, Or.inr ⟨hblank.1, hblank.2, Or.inl ⟨hin, hbound⟩⟩⟩
        · cases h
      · next hnone =>
        cases h
        refine ⟨⟨lookup_cons_of_none hnone, fun _ _ hx => hx, fun _ _ hx => hx⟩, rfl, ?_⟩
        exact Or.inr ⟨hblank.1, hblank.2, Or.inl ⟨hin, lookup_cons_self⟩⟩
    · next hin =>
      split at h
      · cases h
      · next p slot hprod =>
        split at h
        · next hnone =>
          split at h
          · next hconst =>
            cases h
            exact ⟨Extends.refl _, rfl, Or.inr ⟨hblank.1, hblank.2, Or.inr ⟨hin, p, slot, hprod, Or.inl ⟨hnone, hconst⟩⟩⟩⟩
          · cases h
        · split at h <;> cases h

omit [DecidableEq V] in
theorem visit_node (h : visit pat host t s = some (.inr (p, k))) :
    e.Operand pat host t.1 t.2 ↔ e.node p = some k := by
  unfold visit at h
  split at h
  · split at h <;> cases h
  · next hblank =>
    push Not at hblank
    split at h
    · split at h
      · split at h <;> cases h
      · cases h
    · next hin =>
      split at h
      · cases h
      · next p' slot hprod =>
        split at h
        · split at h <;> cases h
        · next h' slot' hhost =>
          split at h
          · cases h
          · next hslot =>
            cases h
            rw [not_not] at hslot
            subst hslot
            constructor
            · rintro (hb | ⟨-, -, ⟨hin', -⟩ | ⟨-, p', slot', hprod', ⟨hnone, -⟩ | ⟨k', hk', hnode⟩⟩⟩)
              · exact absurd hb.1 hblank.1
              · exact absurd hin' hin
              · rw [hhost] at hnone
                cases hnone
              · rw [hprod] at hprod'
                rw [hhost] at hk'
                cases hprod'
                cases hk'
                exact hnode
            · intro hnode
              exact Or.inr ⟨hblank.1, hblank.2, Or.inr ⟨hin, p, slot', hprod, Or.inr ⟨k, hhost, hnode⟩⟩⟩

end Onnxsim.Rewriter.Embeddings
