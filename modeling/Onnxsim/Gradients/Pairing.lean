import Onnxsim.Gradients.ChainRule

namespace Onnxsim.Gradients.Paths

open List Lib.Dicts Lib.Results Proto.Graphs Backward
open Accumulation ChainRule

variable {tables : RuleTables} {ctx : Context} {n : Node} {nodes : List Node} {st st' : WalkState}

theorem walk_cons : walk tables ctx (n :: nodes) st =
    (walk tables ctx nodes st >>= fun st' => visit tables ctx st' n) := by
  rw [walk, reverse_cons, List.foldlM_append]
  refine congrArg (Except.bind _) (funext fun s => ?_)
  rw [foldlM_cons]
  cases visit tables ctx s n <;> rfl

theorem walk_append {pre : List Node} (h : walk tables ctx (pre ++ nodes) st = .ok st') :
    ∃ s, walk tables ctx nodes st = .ok s ∧ walk tables ctx pre s = .ok st' := by
  rw [walk, reverse_append, List.foldlM_append] at h
  exact bind_eq_ok h

theorem callRule_some {b : GraphBuilder} {cs : List (Option String)}
    (h : callRule tables ctx n st = .ok (some (b, cs))) : ∃ o ∈ n.output, ∃ g, st.2.get? o = some g := by
  rw [callRule] at h
  split at h
  · dsimp only at h
    split at h
    · cases h
    · next hany =>
      rw [List.all_map, List.all_eq_true] at hany
      push Not at hany
      obtain ⟨o, ho, hget⟩ := hany
      refine ⟨o, ho, Option.ne_none_iff_exists'.mp fun hnone => hget ?_⟩
      rw [Function.comp_apply, hnone]
      rfl
  · split at h
    · cases h
    · split at h
      · next o houtput =>
        split at h
        · cases h
        · next g hget =>
          rw [houtput]
          exact ⟨o, mem_singleton_self o, g, hget⟩
      · cases h

/-- A gradient path leads from a seed through nodes whose rules hand a gradient on. -/
inductive Reached (tables : RuleTables) (ctx : Context) (nodes : List Node) (st : WalkState) : String → Prop where
  | seed {x g : String} : st.2.get? x = some g → Reached tables ctx nodes st x
  | through {pre post : List Node} {n : Node} {st' : WalkState} {b : GraphBuilder} {cs : List (Option String)}
      {o x c : String} : nodes = pre ++ n :: post → walk tables ctx post st = .ok st' → n.opType ≠ "Constant" →
      callRule tables ctx n st' = .ok (some (b, cs)) → o ∈ n.output → Reached tables ctx nodes st o → x ≠ "" →
      (x, some c) ∈ n.input.zip cs → Reached tables ctx nodes st x

variable {x : String}

theorem visit_keys (h : visit tables ctx st n = .ok st') : (∃ g, st'.2.get? x = some g) ↔
    (∃ g, st.2.get? x = some g) ∨ (x ≠ "" ∧ n.opType ≠ "Constant" ∧ ∃ b cs c,
      callRule tables ctx n st = .ok (some (b, cs)) ∧ (x, some c) ∈ n.input.zip cs) := by
  rw [visit] at h
  split at h
  · next hconst =>
    cases h
    simp [hconst]
  · next hconst =>
    obtain ⟨called, hcall, h⟩ := bind_eq_ok h
    split at h
    · cases h
      simp [hcall]
    · next b cs =>
      split at h
      · cases h
        rw [accumulate_keys, hcall]
        constructor
        · rintro (hold | ⟨hx, c, hc⟩)
          · exact .inl hold
          · exact .inr ⟨hx, hconst, b, cs, c, rfl, hc⟩
        · rintro (hold | ⟨hx, -, b', cs', c, heq, hc⟩)
          · exact .inl hold
          · cases heq
            exact .inr ⟨hx, c, hc⟩
      · cases h

theorem walk_keys_mono (h : walk tables ctx nodes st = .ok st') (hx : ∃ g, st.2.get? x = some g) :
    ∃ g, st'.2.get? x = some g := by
  induction nodes generalizing st' with
  | nil =>
    cases h
    exact hx
  | cons n nodes ih =>
    rw [walk_cons] at h
    obtain ⟨s, hs, h⟩ := bind_eq_ok h
    exact (visit_keys h).mpr (.inl (ih hs))

theorem reached_of_walk {pre post : List Node} (hnodes : nodes = pre ++ post)
    (h : walk tables ctx post st = .ok st') (hx : ∃ g, st'.2.get? x = some g) : Reached tables ctx nodes st x := by
  induction post generalizing pre st' x with
  | nil =>
    cases h
    obtain ⟨g, hg⟩ := hx
    exact .seed hg
  | cons n post ih =>
    have hsplit : nodes = (pre ++ [n]) ++ post := by rw [hnodes, append_assoc, singleton_append]
    rw [walk_cons] at h
    obtain ⟨s, hs, h⟩ := bind_eq_ok h
    cases (visit_keys h).mp hx with
    | inl hold => exact ih hsplit hs hold
    | inr hnew =>
      obtain ⟨hne, hconst, b, cs, c, hcall, hc⟩ := hnew
      obtain ⟨o, ho, hg⟩ := callRule_some hcall
      exact .through hnodes hs hconst hcall ho (ih hsplit hs hg) hne hc

theorem walk_keys (h : walk tables ctx nodes st = .ok st') :
    (∃ g, st'.2.get? x = some g) ↔ Reached tables ctx nodes st x := by
  constructor
  · exact reached_of_walk (nil_append nodes).symm h
  · intro hreached
    cases hreached with
    | seed hg => exact walk_keys_mono h ⟨_, hg⟩
    | through hnodes hs hconst hcall _ _ hne hc =>
      rw [hnodes] at h
      obtain ⟨s, hpost, hpre⟩ := walk_append h
      rw [walk_cons, hs] at hpost
      exact walk_keys_mono hpre ((visit_keys hpost).mpr (.inr ⟨hne, hconst, _, _, _, hcall, hc⟩))

variable {seeds grads acc result : Dict String String} {targets : List String}

/-- One step of `collect`. -/
def collectStep (seeds grads result : Dict String String) (target : String) :
    Except BackwardError (Dict String String) :=
  match grads.get? target with
  | none => .error (.unreachable target (seeds.keys.mergeSort fun x y => decide (x ≤ y)))
  | some g => .ok (result.set target g)

theorem collect_eq : collect seeds grads targets = targets.foldlM (collectStep seeds grads) .empty := rfl

theorem collectStep_some {target g : String} (h : grads.get? target = some g) :
    collectStep seeds grads acc target = .ok (acc.set target g) := by
  rw [collectStep, h]

theorem foldlM_collect_ok (h : targets.foldlM (collectStep seeds grads) acc = .ok result) :
    (∀ t ∈ targets, ∃ g, grads.get? t = some g) ∧
      ∀ x, result.get? x = if x ∈ targets then grads.get? x else acc.get? x := by
  induction targets generalizing acc with
  | nil =>
    cases h
    simp
  | cons t targets ih =>
    rw [foldlM_cons] at h
    obtain ⟨acc', hacc, h⟩ := bind_eq_ok h
    cases hget : grads.get? t with
    | none =>
      rw [collectStep, hget] at hacc
      cases hacc
    | some g =>
      rw [collectStep_some hget] at hacc
      cases hacc
      obtain ⟨hall, hresult⟩ := ih h
      refine ⟨forall_mem_cons.mpr ⟨⟨g, hget⟩, hall⟩, fun x => ?_⟩
      rw [hresult, Dict.get?_set]
      by_cases hx : x ∈ targets
      · rw [if_pos hx, if_pos (mem_cons_of_mem _ hx)]
      · by_cases hxt : x = t
        · rw [if_neg hx, if_pos hxt, if_pos (hxt ▸ mem_cons_self), hxt, hget]
        · have hnot : x ∉ t :: targets := not_mem_cons_of_ne_of_not_mem hxt hx
          rw [if_neg hx, if_neg hxt, if_neg hnot]

theorem foldlM_collect_error {r : BackwardError}
    (h : targets.foldlM (collectStep seeds grads) acc = .error r) :
    ∃ pre t post, targets = pre ++ t :: post ∧ (∀ p ∈ pre, ∃ g, grads.get? p = some g) ∧ grads.get? t = none ∧
      r = .unreachable t (seeds.keys.mergeSort fun x y => decide (x ≤ y)) := by
  induction targets generalizing acc with
  | nil => cases h
  | cons t targets ih =>
    rw [foldlM_cons] at h
    cases hget : grads.get? t with
    | none =>
      rw [collectStep, hget] at h
      cases h
      exact ⟨[], t, targets, rfl, by simp, hget, rfl⟩
    | some g =>
      rw [collectStep_some hget] at h
      obtain ⟨pre, t', post, htargets, hpre, hnone, hr⟩ := ih h
      exact ⟨t :: pre, t', post, by rw [htargets]; rfl, forall_mem_cons.mpr ⟨⟨g, hget⟩, hpre⟩, hnone, hr⟩

end Onnxsim.Gradients.Paths

namespace Onnxsim.Gradients.Pairing

open List Lib.Adjoints Lib.Dicts Lib.Results Proto.Graphs Backward
open Emission Accumulation ForwardMode
open ChainRule Paths

variable {S V R : Type} [AddCommMonoid V] [AddCommMonoid R]

section

variable (sem : TensorSemantics S V) (pair : V →+ V →+ R) (D : Node → List V → List V) (dims : String → S)
  (given : List String) (base : String → Option V) (nodes : List Node)

/-- What holds when the walk has come down through `done`: the gradients balance the seeds where the outputs of
`done` count by their own perturbation and all other tensors by their derivative. -/
structure Walked (U : Finset String) (b : GraphBuilder) (seeds : Dict String String) (done : List Node)
    (st : WalkState) : Prop where
  emits : Extends sem given b st.1
  held : Held given st
  balanced : ∀ e δ, Models sem given base e st.1 → (∀ x, Valued sem e (dims x) (seeds.get? x)) →
    balance pair U (gradients e st.2) (weight done (forwardMode D δ nodes) δ) =
        balance pair U (gradients e seeds) (forwardMode D δ nodes) ∧
      ∀ x, Valued sem e (dims x) (st.2.get? x)

variable {sem pair D dims given base nodes} {tables : RuleTables} {ctx : Context} {U : Finset String}
  {b : GraphBuilder} {seeds : Dict String String} {st st' : WalkState}

theorem Walked.start (h : Held given (b, seeds)) :
    Walked sem pair D dims given base nodes U b seeds [] (b, seeds) := by
  refine ⟨.refl b, h, fun e δ _ hseeds => ⟨?_, hseeds⟩⟩
  apply balance_congr
  intro x _
  exact .inr (if_neg not_mem_nil)

theorem Walked.visit (hlaw : LawfulTables sem pair D dims given base tables ctx nodes) (ht : Topological nodes)
    (hU : ∀ n ∈ nodes, ∀ x ∈ n.output ++ n.input, x ∈ U) {pre done : List Node} {n : Node}
    (hnodes : nodes = pre ++ n :: done) (h : Walked sem pair D dims given base nodes U b seeds done st)
    (hvisit : visit tables ctx st n = .ok st') :
    Walked sem pair D dims given base nodes U b seeds (n :: done) st' := by
  have hn : n ∈ nodes := by
    rw [hnodes]
    exact mem_append_right _ mem_cons_self
  obtain ⟨hext, hheld⟩ := visit_emits hlaw hn h.held hvisit
  have hfresh : ∀ x ∈ nonempty n.output, x ∉ outs done := by
    have hsingle := ht.single
    rw [hnodes, outs_append, outs, outs, flatMap_cons] at hsingle
    obtain ⟨-, htail, -⟩ := nodup_append.mp hsingle
    exact fun x hx hmem => (nodup_append.mp htail).2.2 x hx x hmem rfl
  have hinput : ∀ x ∈ n.input, x ∉ outs done := by
    intro x hx hmem
    obtain ⟨m, hm, hxm⟩ := mem_flatMap.mp hmem
    have horder := ht.order
    rw [hnodes] at horder
    exact (pairwise_cons.mp (pairwise_append.mp horder).2.1).1 m hm x hxm hx
  refine ⟨h.emits.trans hext, hheld, fun e δ he hseeds => ?_⟩
  obtain ⟨hbal, hvalued⟩ := h.balanced e δ (he.of_extends hext) hseeds
  obtain ⟨hstep, hvalued'⟩ := visit_balance (δ := δ) hlaw ht hn hfresh hinput (hU n hn) h.held hvalued hvisit he
  exact ⟨hstep.trans hbal, hvalued'⟩

theorem walk_walked (hlaw : LawfulTables sem pair D dims given base tables ctx nodes) (ht : Topological nodes)
    (hU : ∀ n ∈ nodes, ∀ x ∈ n.output ++ n.input, x ∈ U) (hseeds : Held given (b, seeds)) {pre post : List Node}
    (hnodes : nodes = pre ++ post) (h : walk tables ctx post (b, seeds) = .ok st) :
    Walked sem pair D dims given base nodes U b seeds post st := by
  induction post generalizing pre st with
  | nil =>
    cases h
    exact .start hseeds
  | cons n post ih =>
    have hsplit : nodes = (pre ++ [n]) ++ post := by rw [hnodes, append_assoc, singleton_append]
    rw [walk_cons] at h
    obtain ⟨s, hs, h⟩ := bind_eq_ok h
    exact (ih hsplit hs).visit hlaw ht hU hnodes h

end

section

variable (sem : TensorSemantics S V) (pair : V →+ V →+ R) (D : Node → List V → List V) (dims : String → S)
  (given : List String) (base : String → Option V) (nodes : List Node) (seeds : Dict String String)
  (targets : List String)

/-- What is returned for the targets: tensors whose pairing with any perturbation of the targets is the seeds'
pairing with the forward-mode derivative. -/
structure Returned (b b' : GraphBuilder) (result : Dict String String) : Prop where
  emits : Extends sem given b b'
  keys : ∀ x, (∃ g, result.get? x = some g) ↔ x ∈ targets
  held : ∀ x g, result.get? x = some g → Available given b' g
  runs : ∀ e, Models sem given base e b → (∀ n ∈ b.nodes, ∀ x ∈ n.reads, x ∈ known given b) →
    (∀ x ∈ known given b, ∀ hint k, b.counter < k → x ≠ GraphBuilder.nameAt b.namePrefix hint k) →
      ∃ e', Models sem given base e' b' ∧ ∀ x ∈ known given b, e' x = e x
  shaped : ∀ e, Models sem given base e b' → (∀ x, Valued sem e (dims x) (seeds.get? x)) →
    ∀ x, Valued sem e (dims x) (result.get? x)
  adjoint : ∀ e, Models sem given base e b' → (∀ x, Valued sem e (dims x) (seeds.get? x)) →
    ∀ δ : String → V, (∀ x, x ∉ targets → δ x = 0) →
      balance pair targets.toFinset (gradients e result) δ =
        balance pair seeds.keys.toFinset (gradients e seeds) (forwardMode D δ nodes)

variable {sem pair D dims given base nodes seeds targets} {tables : RuleTables} {b : GraphBuilder}
  {st : WalkState} {result : Dict String String}

theorem returned_of_walked {U : Finset String} (h : Walked sem pair D dims given base nodes U b seeds nodes st)
    (hseedsU : seeds.keys.toFinset ⊆ U) (htargetsU : targets.toFinset ⊆ U)
    (hreached : ∀ t ∈ targets, ∃ g, st.2.get? t = some g)
    (hresult : ∀ x, result.get? x = if x ∈ targets then st.2.get? x else none) :
    Returned sem pair D dims given base nodes seeds targets b st.1 result := by
  have hof : ∀ x g, result.get? x = some g → x ∈ targets ∧ st.2.get? x = some g := by
    intro x g hg
    rw [hresult] at hg
    split at hg
    · next hx => exact ⟨hx, hg⟩
    · cases hg
  refine ⟨h.emits, fun x => ⟨?_, fun hx => ?_⟩, fun x g hg => (h.held x g (hof x g hg).2).2, ?_, ?_, ?_⟩
  · rintro ⟨g, hg⟩
    exact (hof x g hg).1
  · obtain ⟨g, hg⟩ := hreached x hx
    exact ⟨g, by rw [hresult, if_pos hx, hg]⟩
  · intro e he hreads hfresh
    exact h.emits.exists_models he hreads hfresh
  · intro e he hseeds x g hg
    exact (h.balanced e (fun _ => 0) he hseeds).2 x g (hof x g hg).2
  · intro e he hseeds δ hδ
    have hbalanced := (h.balanced e δ he hseeds).1
    have hends : balance pair U (gradients e st.2) (weight nodes (forwardMode D δ nodes) δ) =
        balance pair U (gradients e st.2) δ := by
      apply balance_congr
      intro x _
      refine .inr ?_
      rw [weight]
      split
      · rfl
      · next hx => exact forwardMode_of_notMem hx
    have htargets : balance pair U (gradients e st.2) δ = balance pair targets.toFinset (gradients e st.2) δ := by
      apply balance_subset htargetsU
      intro x _ hx
      exact .inr (hδ x fun hmem => hx (List.mem_toFinset.mpr hmem))
    have hsame : balance pair targets.toFinset (gradients e result) δ =
        balance pair targets.toFinset (gradients e st.2) δ := by
      refine Finset.sum_congr rfl fun x hx => ?_
      rw [gradients, gradients, hresult, if_pos (List.mem_toFinset.mp hx)]
    have hstart : balance pair U (gradients e seeds) (forwardMode D δ nodes) =
        balance pair seeds.keys.toFinset (gradients e seeds) (forwardMode D δ nodes) := by
      apply balance_subset hseedsU
      intro x _ hx
      refine .inl ?_
      rw [List.mem_toFinset, Dict.mem_keys_iff, not_exists] at hx
      rw [gradients, Option.eq_none_iff_forall_ne_some.mpr hx]
      rfl
    rw [hsame, ← htargets, ← hends, hbalanced, hstart]

theorem buildBackward_ok {shapes : Dict String (List Int)} {b' : GraphBuilder}
    (h : buildBackward tables b nodes shapes seeds targets = .ok (b', result)) :
    ∃ grads, walk tables ⟨shapes, addConstants nodes⟩ nodes (b, seeds) = .ok (b', grads) ∧
      collect seeds grads targets = .ok result := by
  rw [buildBackward] at h
  obtain ⟨⟨b₁, grads⟩, hwalk, h⟩ := bind_eq_ok h
  obtain ⟨result', hcollect, h⟩ := bind_eq_ok h
  cases h
  exact ⟨grads, hwalk, hcollect⟩

end

section

variable (sem : TensorSemantics S V) (pair : V →+ V →+ R) (D : Node → List V → List V) (dims : String → S)
  (given : List String) (base : String → Option V) (ctx : Context) (nodes : List Node) (seeds : Dict String String)
  (targets : List String) (b : GraphBuilder)

/-- An outcome is right: what is returned are the gradients, and after a walk that no rule stops, an error is
raised for the first target that no gradient path reaches. -/
structure ChainRule (tables : RuleTables) (r : Except BackwardError (GraphBuilder × Dict String String)) : Prop where
  returned : ∀ b' result, r = .ok (b', result) →
    Returned sem pair D dims given base nodes seeds targets b b' result
  reached : ∀ st, walk tables ctx nodes (b, seeds) = .ok st →
    ((∃ result, r = .ok (st.1, result)) ↔ ∀ t ∈ targets, Reached tables ctx nodes (b, seeds) t)
  raised : ∀ st, walk tables ctx nodes (b, seeds) = .ok st → ∀ error, r = .error error →
    ∃ pre t post, targets = pre ++ t :: post ∧ (∀ p ∈ pre, Reached tables ctx nodes (b, seeds) p) ∧
      ¬ Reached tables ctx nodes (b, seeds) t ∧
      error = .unreachable t (seeds.keys.mergeSort fun x y => decide (x ≤ y))

variable {sem pair D dims given base nodes seeds targets b} {tables : RuleTables}
  {shapes : Dict String (List Int)}

theorem buildBackward_of_walk {st : WalkState}
    (h : walk tables ⟨shapes, addConstants nodes⟩ nodes (b, seeds) = .ok st) :
    buildBackward tables b nodes shapes seeds targets = (collect seeds st.2 targets).map fun result => (st.1, result) := by
  rw [buildBackward, ok_bind h]
  dsimp only
  cases collect seeds st.2 targets <;> rfl

def touched (nodes : List Node) (seeds : Dict String String) (targets : List String) : Finset String :=
  (nodes.flatMap fun n => n.output ++ n.input).toFinset ∪ (seeds.keys.toFinset ∪ targets.toFinset)

theorem buildBackward_chainRule
    (hlaw : LawfulTables sem pair D dims given base tables ⟨shapes, addConstants nodes⟩ nodes)
    (ht : Topological nodes) (hseeds : Held given (b, seeds)) :
    ChainRule sem pair D dims given base ⟨shapes, addConstants nodes⟩ nodes seeds targets b tables
      (buildBackward tables b nodes shapes seeds targets) := by
  have hU : ∀ n ∈ nodes, ∀ x ∈ n.output ++ n.input, x ∈ touched nodes seeds targets := fun n hn x hx =>
    Finset.mem_union_left _ (List.mem_toFinset.mpr (mem_flatMap.mpr ⟨n, hn, hx⟩))
  refine ⟨fun b' result h => ?_, fun st hwalk => ?_, fun st hwalk error h => ?_⟩
  · obtain ⟨grads, hwalk, hcollect⟩ := buildBackward_ok h
    rw [collect_eq] at hcollect
    obtain ⟨hreached, hresult⟩ := foldlM_collect_ok hcollect
    have hwalked := walk_walked hlaw ht hU hseeds (nil_append nodes).symm hwalk
    refine returned_of_walked hwalked ?_ ?_ hreached hresult
    · exact Finset.subset_union_left.trans Finset.subset_union_right
    · exact Finset.subset_union_right.trans Finset.subset_union_right
  · rw [buildBackward_of_walk hwalk]
    constructor
    · rintro ⟨result, hresult⟩ t ht
      obtain ⟨result', hcollect, -⟩ := map_eq_ok hresult
      rw [collect_eq] at hcollect
      exact (walk_keys hwalk).mp ((foldlM_collect_ok hcollect).1 t ht)
    · intro hall
      cases hcollect : collect seeds st.2 targets with
      | ok result => exact ⟨result, rfl⟩
      | error r =>
        rw [collect_eq] at hcollect
        obtain ⟨pre, t, post, rfl, -, hnone, -⟩ := foldlM_collect_error hcollect
        obtain ⟨g, hg⟩ := (walk_keys hwalk).mpr (hall t (mem_append_right _ mem_cons_self))
        rw [hnone] at hg
        cases hg
  · rw [buildBackward_of_walk hwalk] at h
    cases hcollect : collect seeds st.2 targets with
    | ok result =>
      rw [hcollect] at h
      cases h
    | error r =>
      rw [hcollect] at h
      cases h
      rw [collect_eq] at hcollect
      obtain ⟨pre, t, post, htargets, hpre, hnone, hr⟩ := foldlM_collect_error hcollect
      refine ⟨pre, t, post, htargets, fun p hp => (walk_keys hwalk).mp (hpre p hp), fun hreached => ?_, hr⟩
      obtain ⟨g, hg⟩ := (walk_keys hwalk).mpr hreached
      rw [hnone] at hg
      cases hg

theorem lawful_onlySingle {ctx : Context} (h : LawfulTables sem pair D dims given base tables ctx nodes) :
    LawfulTables sem pair D dims given base ⟨tables.rules, fun _ => none⟩ ctx nodes := by
  refine ⟨h.single, fun n _ rule hrule => ?_⟩
  cases hrule

end

def sumInputs (n : Node) (e : String → Option ℤ) : List ℤ :=
  [((nonempty n.input).map fun x => (e x).getD 0).sum]

theorem sumInputs_congr (n : Node) (e e' : String → Option ℤ) (h : ∀ x ∈ n.reads, e x = e' x) :
    sumInputs n e = sumInputs n e' := by
  have hread : ∀ x ∈ nonempty n.input, x ∈ n.reads := by
    cases n with
    | mk name domain opType input output attrs => exact fun x hx => mem_append_left _ hx
  refine congrArg (fun l => [List.sum l]) (map_congr_left fun x hx => ?_)
  rw [h x (hread x hx)]

theorem sumInputs_add (x y out : String) (e : String → Option ℤ) (_ : Unit) (hx : x ≠ "") (hy : y ≠ "") :
    ∀ u ∈ (⊤ : AddSubmonoid ℤ), ∀ v ∈ (⊤ : AddSubmonoid ℤ), e x = some u → e y = some v →
      sumInputs (.mk "" "" "Add" [x, y] [out] []) e = [u + v] := by
  intro u _ v _ hu hv
  simp [sumInputs, Node.input, nonempty, hx, hy, hu, hv]

/-- Integers as tensors; every operator at hand adds its inputs up. -/
def sums : TensorSemantics Unit ℤ where
  space _ := ⊤
  ofTensor _ := 0
  run := sumInputs
  run_congr := sumInputs_congr
  run_add := sumInputs_add

/-- The rule of an addition of equal shapes, and of an alias. -/
def passOn : Rule := fun _ n g b => .ok (b, n.input.map fun _ => some g)

def residualTables : RuleTables where
  rules opType := if opType = "Add" ∨ opType = "Identity" then some passOn else none
  multiOutputRules _ := none

def residualNodes : List Node := [.mk "" "" "Identity" ["x"] ["y"] [], .mk "" "" "Add" ["y", "x"] ["z"] []]

def residualSeeds : Dict String String := Dict.empty.set "z" "dz"

def residualValues (x : String) : Option ℤ := if x ∈ ["x", "y", "z", "dz"] then some 1 else none

theorem pairings_passOn {α : Type} (xs : List α) (g : ℤ) {ds : List ℤ} (h : ds.length = xs.length) :
    pairings AddMonoidHom.mul (xs.map fun _ => g) ds = g * ds.sum := by
  induction xs generalizing ds with
  | nil =>
    rw [eq_nil_of_length_eq_zero h, sum_nil, mul_zero]
    rfl
  | cons x xs ih =>
    obtain ⟨d, ds, rfl⟩ := exists_cons_of_length_eq_add_one h
    have hrest := ih (Nat.succ.inj h)
    rw [pairings] at hrest ⊢
    rw [map_cons, zipWith_cons_cons, sum_cons, hrest, sum_cons, mul_add]
    rfl

theorem residual_lawful (ctx : Context) : LawfulTables sums AddMonoidHom.mul (fun _ ds => [ds.sum]) (fun _ => ())
    ["x", "y", "z", "dz"] residualValues residualTables ctx residualNodes := by
  refine ⟨fun n hn rule hrule o houtput g b b' cs hg hcall hlen => ?_, fun n _ rule hrule => ?_⟩
  · have ho : o ≠ "" := by
      rintro rfl
      have hnone : ∀ m ∈ residualNodes, m.output ≠ [""] := by decide
      exact hnone n hn houtput
    rw [residualTables] at hrule
    dsimp only at hrule
    split at hrule
    · cases hrule
      cases hcall
      refine ⟨.refl b, fun c hc => ?_, fun e _ hgs p hp _ c hc => ?_, fun e _ hgs ds hds _ => ?_⟩
      · obtain ⟨x, -, hx⟩ := List.mem_map.mp hc
        cases hx
        exact hg
      · obtain ⟨x, -, hx⟩ := List.mem_map.mp (of_mem_zip hp).2
        rw [← hx] at hc
        cases hc
        exact hgs (o, some g) (by rw [houtput]; exact mem_singleton_self _) ho _ rfl
      · rw [List.map_map]
        change pairings _ [_] [_] = pairings _ (n.input.map fun _ => valueOf e (some g)) ds
        rw [pairings_passOn _ _ hds]
        exact add_zero _
    · cases hrule
  · cases hrule

theorem residual_topological : Topological residualNodes := by
  refine ⟨by decide, by decide, by decide⟩

theorem residual_held : Held ["x", "y", "z", "dz"] (({} : GraphBuilder), residualSeeds) := by
  intro x g hg
  rw [residualSeeds, Dict.get?_set] at hg
  split at hg
  · next hx =>
    cases hg
    exact ⟨hx ▸ by decide, by decide, by decide⟩
  · cases hg

end Onnxsim.Gradients.Pairing
