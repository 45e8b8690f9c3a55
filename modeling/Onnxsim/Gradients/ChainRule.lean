import Onnxsim.Gradients.Emission
import Onnxsim.Lib.Adjoints

namespace Onnxsim.Gradients.Accumulation

open List Lib.Adjoints Lib.Dicts Proto.Graphs Backward
open Emission

variable {S V R : Type} [AddCommMonoid V] [AddCommMonoid R]

/-- The gradient held by a tensor, zero where there is none. -/
def valueOf (e : String → Option V) (g : Option String) : V := (g.bind e).getD 0

def gradients (e : String → Option V) (grads : Dict String String) (x : String) : V := valueOf e (grads.get? x)

/-- A gradient, where there is one, has a value of the shape of the tensor it is for. -/
def Valued (sem : TensorSemantics S V) (e : String → Option V) (s : S) (g : Option String) : Prop :=
  ∀ x, g = some x → ∃ v ∈ sem.space s, e x = some v

variable {e : String → Option V} {grads : Dict String String}

theorem valueOf_some {x : String} {v : V} (h : e x = some v) : valueOf e (some x) = v := by
  rw [valueOf, Option.bind_some, h, Option.getD_some]

theorem gradients_set (x g : String) :
    gradients e (grads.set x g) = Function.update (gradients e grads) x (valueOf e (some g)) := by
  funext y
  rw [gradients, Dict.get?_set, Function.update_apply]
  split <;> rfl

variable {sem : TensorSemantics S V} {dims : String → S} {given : List String} {base : String → Option V}
  {b : GraphBuilder} {l : List (String × Option String)}

def Held (given : List String) (st : WalkState) : Prop :=
  ∀ x g, st.2.get? x = some g → x ≠ "" ∧ Available given st.1 g

theorem held_set {x g : String} (h : Held given (b, grads)) (hx : x ≠ "") (hg : Available given b g) :
    Held given (b, grads.set x g) := by
  intro y g' hy
  rw [Dict.get?_set] at hy
  split at hy
  · next hyx =>
    cases hy
    exact ⟨hyx ▸ hx, hg⟩
  · exact h y g' hy

theorem held_add {x c g : String} (h : Held given (b, grads)) (hx : x ≠ "") (hg : grads.get? x = some g)
    (hc : Available given b c) :
    Extends sem given b (b.add g c).2 ∧ Held given ((b.add g c).2, grads.set x (b.add g c).1) := by
  obtain ⟨hext, hout⟩ : Extends sem given b (b.add g c).2 ∧ _ := extends_add (h x g hg).2 hc
  refine ⟨hext, held_set (fun y g' hy => ?_) hx hout⟩
  obtain ⟨hy', hg'⟩ := h y g' hy
  exact ⟨hy', hext.available_mono hg'⟩

theorem accumulate_emits (h : Held given (b, grads)) (hl : ∀ p ∈ l, ∀ c, p.2 = some c → Available given b c) :
    Extends sem given b (accumulate l (b, grads)).1 ∧ Held given (accumulate l (b, grads)) := by
  induction l generalizing b grads with
  | nil => exact ⟨.refl b, h⟩
  | cons p l ih =>
    obtain ⟨x, c⟩ := p
    have hrest : ∀ p ∈ l, ∀ c, p.2 = some c → Available given b c := fun p hp => hl p (mem_cons_of_mem _ hp)
    cases c with
    | none => exact ih h hrest
    | some c =>
      have hc : Available given b c := hl _ mem_cons_self c rfl
      rw [accumulate]
      by_cases hx : x = ""
      · rw [if_pos hx]
        exact ih h hrest
      · rw [if_neg hx]
        cases hg : grads.get? x with
        | none => exact ih (held_set h hx hc) hrest
        | some g =>
          obtain ⟨hext, hheld⟩ : Extends sem given b (b.add g c).2 ∧ _ := held_add h hx hg hc
          obtain ⟨hext', hheld'⟩ := ih hheld fun p hp c hpc => hext.available_mono (hrest p hp c hpc)
          exact ⟨hext.trans hext', hheld'⟩

theorem accumulate_balance (pair : V →+ V →+ R) {U : Finset String} {w : String → V}
    (h : Held given (b, grads)) (hl : ∀ p ∈ l, ∀ c, p.2 = some c → Available given b c)
    (he : Models sem given base e (accumulate l (b, grads)).1)
    (hvalued : ∀ x, Valued sem e (dims x) (grads.get? x)) (hcontrib : ∀ p ∈ l, p.1 ≠ "" → Valued sem e (dims p.1) p.2) (hU : ∀ p ∈ l, p.1 ∈ U) :
    balance pair U (gradients e (accumulate l (b, grads)).2) w = balance pair U (gradients e grads) w +
        pairings pair (l.map fun p => valueOf e p.2) (l.map fun p => if p.1 = "" then 0 else w p.1) ∧
      ∀ x, Valued sem e (dims x) ((accumulate l (b, grads)).2.get? x) := by
  induction l generalizing b grads with
  | nil => exact ⟨(add_zero _).symm, hvalued⟩
  | cons p l ih =>
    obtain ⟨x, c⟩ := p
    have hl' : ∀ p ∈ l, ∀ c, p.2 = some c → Available given b c := fun p hp => hl p (mem_cons_of_mem _ hp)
    have hcontrib' : ∀ p ∈ l, p.1 ≠ "" → Valued sem e (dims p.1) p.2 := fun p hp => hcontrib p (mem_cons_of_mem _ hp)
    have hU' : ∀ p ∈ l, p.1 ∈ U := fun p hp => hU p (mem_cons_of_mem _ hp)
    have hcons : pairings pair (((x, c) :: l).map fun p => valueOf e p.2)
        (((x, c) :: l).map fun p => if p.1 = "" then 0 else w p.1) =
          pair (valueOf e c) (if x = "" then 0 else w x) +
            pairings pair (l.map fun p => valueOf e p.2) (l.map fun p => if p.1 = "" then 0 else w p.1) := by
      simp [pairings]
    rw [hcons, ← add_assoc]
    cases c with
    | none =>
      obtain ⟨hbal, hval⟩ := ih h hl' he hvalued hcontrib' hU'
      refine ⟨?_, hval⟩
      have hzero : valueOf e none = 0 := rfl
      rw [hzero, map_zero, AddMonoidHom.zero_apply, add_zero]
      exact hbal
    | some c =>
      have hc : Available given b c := hl _ mem_cons_self c rfl
      rw [accumulate] at he ⊢
      by_cases hx : x = ""
      · rw [if_pos hx] at he ⊢
        obtain ⟨hbal, hval⟩ := ih h hl' he hvalued hcontrib' hU'
        refine ⟨?_, hval⟩
        rw [if_pos hx, map_zero, add_zero]
        exact hbal
      · obtain ⟨u, hspace, hu⟩ := hcontrib _ mem_cons_self hx c rfl
        rw [if_neg hx] at he ⊢
        rw [if_neg hx]
        have hset : ∀ (g : String), ∀ v ∈ sem.space (dims x), e g = some v →
            ∀ y, Valued sem e (dims y) ((grads.set x g).get? y) := by
          intro g v hvs hv y g' hg'
          rw [Dict.get?_set] at hg'
          split at hg'
          · next hyx =>
            cases hg'
            exact ⟨v, hyx ▸ hvs, hv⟩
          · exact hvalued y g' hg'
        cases hg : grads.get? x with
        | none =>
          simp only [hg] at he ⊢
          have hupdate : gradients e (grads.set x c) =
              Function.update (gradients e grads) x (gradients e grads x + valueOf e (some c)) := by
            have hnone : gradients e grads x = 0 := by rw [gradients, hg]; rfl
            rw [gradients_set, hnone, zero_add]
          obtain ⟨hbal, hval⟩ := ih (held_set h hx hc) hl' he (hset c u hspace hu) hcontrib' hU'
          refine ⟨?_, hval⟩
          rw [hbal, hupdate, balance_update (hU _ mem_cons_self)]
        | some g =>
          simp only [hg] at he ⊢
          obtain ⟨hext, hheld⟩ : Extends sem given b (b.add g c).2 ∧ _ := held_add h hx hg hc
          have hl'' : ∀ p ∈ l, ∀ c', p.2 = some c' → Available given (b.add g c).2 c' :=
            fun p hp c' hc' => hext.available_mono (hl' p hp c' hc')
          obtain ⟨v, hvs, hv⟩ := hvalued x g hg
          have hsum : e (b.add g c).1 = some (v + u) :=
            value_add (h x g hg).2.1 hc.1 hvs hspace (Models.of_extends (accumulate_emits hheld hl'').1 he) hv hu
          have hupdate : gradients e (grads.set x (b.add g c).1) =
              Function.update (gradients e grads) x (gradients e grads x + valueOf e (some c)) := by
            have hsome : gradients e grads x = v := by rw [gradients, hg, valueOf_some hv]
            rw [gradients_set, hsome, valueOf_some hsum, valueOf_some hu]
          obtain ⟨hbal, hval⟩ := ih hheld hl'' he (hset _ _ (add_mem hvs hspace) hsum) hcontrib' hU'
          refine ⟨?_, hval⟩
          rw [hbal, hupdate, balance_update (hU _ mem_cons_self)]

theorem accumulate_keys (x : String) : (∃ g, (accumulate l (b, grads)).2.get? x = some g) ↔
    (∃ g, grads.get? x = some g) ∨ (x ≠ "" ∧ ∃ c, (x, some c) ∈ l) := by
  induction l generalizing b grads with
  | nil => simp [accumulate]
  | cons p l ih =>
    obtain ⟨y, c⟩ := p
    cases c with
    | none =>
      rw [accumulate, ih]
      simp
    | some c =>
      rw [accumulate]
      have hset : ∀ g, (∃ g', (grads.set y g).get? x = some g') ↔ x = y ∨ ∃ g', grads.get? x = some g' := by
        intro g
        rw [Dict.get?_set]
        split
        · next hxy => simp [hxy]
        · next hxy => simp [hxy]
      by_cases hy : y = ""
      · rw [if_pos hy, ih]
        constructor
        · rintro (h | ⟨hx, c', hc'⟩)
          · exact .inl h
          · exact .inr ⟨hx, c', mem_cons_of_mem _ hc'⟩
        · rintro (h | ⟨hx, c', hc'⟩)
          · exact .inl h
          · cases mem_cons.mp hc' with
            | inl heq =>
              cases heq
              exact absurd hy hx
            | inr hmem => exact .inr ⟨hx, c', hmem⟩
      · rw [if_neg hy]
        have hstep : ∀ b' g, (∃ g', (accumulate l (b', grads.set y g)).2.get? x = some g') ↔
            (∃ g', grads.get? x = some g') ∨ (x ≠ "" ∧ ∃ c', (x, some c') ∈ (y, some c) :: l) := by
          intro b' g
          rw [ih, hset]
          constructor
          · rintro ((hxy | h) | ⟨hx, c', hc'⟩)
            · exact .inr ⟨hxy ▸ hy, c, by rw [hxy]; exact mem_cons_self⟩
            · exact .inl h
            · exact .inr ⟨hx, c', mem_cons_of_mem _ hc'⟩
          · rintro (h | ⟨hx, c', hc'⟩)
            · exact .inl (.inr h)
            · cases mem_cons.mp hc' with
              | inl heq =>
                cases heq
                exact .inl (.inl rfl)
              | inr hmem => exact .inr ⟨hx, c', hmem⟩
        cases hg : grads.get? y with
        | none => exact hstep b c
        | some g => exact hstep _ _

end Onnxsim.Gradients.Accumulation

namespace Onnxsim.Gradients.ForwardMode

open List Lib.Adjoints Lib.Dicts Lib.Results Proto.Graphs
open Backward Emission Accumulation

variable {V R : Type} [AddCommMonoid V] [AddCommMonoid R]

/-- Every node stands behind what it reads, and no name is written twice. -/
structure Topological (nodes : List Node) : Prop where
  order : nodes.Pairwise fun m n => ∀ x ∈ nonempty n.output, x ∉ m.input
  own : ∀ n ∈ nodes, ∀ x ∈ nonempty n.output, x ∉ n.input
  single : (outs nodes).Nodup

variable {x : String}

section

variable (D : Node → List V → List V) (δ : String → V)

def inputDirections (τ : String → V) (n : Node) : List V := n.input.map fun x => if x = "" then 0 else τ x

/-- The directions a node passes on; a constant passes on none. -/
def derivative (τ : String → V) (n : Node) : List V :=
  if n.opType = "Constant" then [] else D n (inputDirections τ n)

def forwardStep (τ : String → V) (n : Node) (x : String) : V :=
  if x ∈ nonempty n.output then δ x + (derivative D τ n).getD (n.output.idxOf x) 0 else τ x

/-- The forward-mode derivative of the nodes when every tensor is perturbed by `δ` in its place. -/
def forwardMode (nodes : List Node) : String → V := nodes.foldl (forwardStep D δ) δ

variable {D δ} {n : Node} {nodes : List Node}

theorem derivative_congr {τ σ : String → V} (h : ∀ x ∈ n.input, τ x = σ x) : derivative D τ n = derivative D σ n := by
  have hdirs : inputDirections τ n = inputDirections σ n := by
    apply map_congr_left
    intro x hx
    rw [h x hx]
  rw [derivative, derivative, hdirs]

theorem foldl_of_notMem (hx : x ∉ outs nodes) (τ : String → V) : nodes.foldl (forwardStep D δ) τ x = τ x := by
  induction nodes generalizing τ with
  | nil => rfl
  | cons n nodes ih =>
    rw [outs, flatMap_cons, mem_append, not_or] at hx
    rw [foldl_cons, ih hx.2, forwardStep, if_neg hx.1]

theorem forwardMode_of_notMem (hx : x ∉ outs nodes) : forwardMode D δ nodes x = δ x := foldl_of_notMem hx δ

theorem forwardMode_output (ht : Topological nodes) (hn : n ∈ nodes) (hx : x ∈ nonempty n.output) :
    forwardMode D δ nodes x =
      δ x + (derivative D (forwardMode D δ nodes) n).getD (n.output.idxOf x) 0 := by
  obtain ⟨pre, post, rfl⟩ := append_of_mem hn
  have hsingle := ht.single
  rw [outs_append, outs, outs, flatMap_cons] at hsingle
  obtain ⟨-, htail, -⟩ := nodup_append.mp hsingle
  have hlater : ∀ y ∈ nonempty n.output, y ∉ outs post := fun y hy hmem =>
    (nodup_append.mp htail).2.2 y hy y hmem rfl
  have hvalue : ∀ y, y ∉ outs post →
      forwardMode D δ (pre ++ n :: post) y = forwardStep D δ (forwardMode D δ pre) n y := by
    intro y hy
    rw [forwardMode, foldl_append, foldl_cons, foldl_of_notMem hy]
    rfl
  have hread : ∀ y ∈ n.input, forwardMode D δ (pre ++ n :: post) y = forwardMode D δ pre y := by
    intro y hy
    have hown : y ∉ nonempty n.output := fun hmem => ht.own n hn y hmem hy
    have hpost : y ∉ outs post := by
      intro hmem
      obtain ⟨m, hm, hym⟩ := mem_flatMap.mp hmem
      have hafter := (pairwise_append.mp ht.order).2.1
      exact (pairwise_cons.mp hafter).1 m hm y hym hy
    rw [hvalue y hpost, forwardStep, if_neg hown]
  rw [hvalue x (hlater x hx), forwardStep, if_pos hx, derivative_congr hread]

end

theorem gather_of_notMem {xs : List String} (hx : x ∉ xs) (ds : List V) : gather xs ds x = 0 := by
  induction xs generalizing ds with
  | nil => exact gather_nil_left ds x
  | cons y xs ih =>
    cases ds with
    | nil => exact gather_nil_right _ x
    | cons d ds =>
      rw [mem_cons, not_or] at hx
      have hrest := ih hx.2 ds
      rw [gather] at hrest
      rw [gather, zipWith_cons_cons, sum_cons, if_neg (Ne.symm hx.1), zero_add, hrest]

theorem gather_of_single {xs : List String} (hx : x ∈ nonempty xs) (hnd : (nonempty xs).Nodup) (ds : List V) :
    gather xs ds x = ds.getD (xs.idxOf x) 0 := by
  induction xs generalizing ds with
  | nil => cases hx
  | cons y xs ih =>
    cases ds with
    | nil => rw [gather_nil_right]; rfl
    | cons d ds =>
      have hne : x ≠ "" := of_decide_eq_true (mem_filter.mp hx).2
      rw [gather, zipWith_cons_cons, sum_cons, ← gather]
      by_cases hyx : y = x
      · have hnot : x ∉ xs := by
          intro hmem
          rw [nonempty, filter_cons_of_pos (by simpa [hyx] using hne), nodup_cons] at hnd
          exact hnd.1 (mem_filter.mpr ⟨hyx ▸ hmem, by simpa [hyx] using hne⟩)
        rw [if_pos hyx, gather_of_notMem hnot, add_zero, hyx, idxOf_cons_self]
        rfl
      · have hmem : x ∈ nonempty xs := by
          have hin := (mem_filter.mp hx).1
          exact mem_filter.mpr ⟨(mem_cons.mp hin).resolve_left (Ne.symm hyx), (mem_filter.mp hx).2⟩
        have hnd' : (nonempty xs).Nodup := by
          rw [nonempty, filter_cons] at hnd
          split at hnd
          · exact (nodup_cons.mp hnd).2
          · exact hnd
        rw [if_neg hyx, zero_add, ih hmem hnd' ds, idxOf_cons_ne _ hyx]
        rfl

end Onnxsim.Gradients.ForwardMode

namespace Onnxsim.Gradients.ChainRule

open List Lib.Adjoints Lib.Dicts Lib.Results Proto.Graphs Backward
open Emission Accumulation ForwardMode

variable {S V R : Type} [AddCommMonoid V] [AddCommMonoid R]

section

variable (sem : TensorSemantics S V) (pair : V →+ V →+ R) (D : Node → List V → List V) (dims : String → S)
  (given : List String) (base : String → Option V)

/-- The tensors' gradients, position by position, have values of the tensors' shapes. -/
def ValuedAll (e : String → Option V) (xs : List String) (gs : List (Option String)) : Prop :=
  ∀ p ∈ xs.zip gs, p.1 ≠ "" → Valued sem e (dims p.1) p.2

/-- A call of a rule that is a local adjoint: it emits in order, and the gradients it gets, paired with the
node's directional derivative, are those it returns, paired with the directions of the inputs. -/
structure LawfulCall (n : Node) (gs : List (Option String)) (b b' : GraphBuilder) (cs : List (Option String)) :
    Prop where
  emits : Extends sem given b b'
  held : ∀ c, some c ∈ cs → Available given b' c
  computes : ∀ e, Models sem given base e b' → ValuedAll sem dims e n.output gs → ValuedAll sem dims e n.input cs
  adjoint : ∀ e, Models sem given base e b' → ValuedAll sem dims e n.output gs →
    ∀ ds, ds.length = n.input.length → (∀ i : Nat, n.input[i]? = some "" → ds[i]? = some 0) →
      pairings pair (gs.map (valueOf e)) (D n ds) = pairings pair (cs.map (valueOf e)) ds

/-- Every rule is a local adjoint on the nodes at hand. -/
structure LawfulTables (tables : RuleTables) (ctx : Context) (nodes : List Node) : Prop where
  single : ∀ n ∈ nodes, ∀ rule, tables.rules n.opType = some rule → ∀ o, n.output = [o] → ∀ g b b' cs,
    Available given b g → rule ctx n g b = .ok (b', cs) → cs.length = n.input.length →
      LawfulCall sem pair D dims given base n [some g] b b' cs
  multi : ∀ n ∈ nodes, ∀ rule, tables.multiOutputRules n.opType = some rule → ∀ gs b b' cs,
    gs.length = n.output.length → (∀ g, some g ∈ gs → Available given b g) →
      rule ctx n gs b = .ok (b', cs) → cs.length = n.input.length →
        LawfulCall sem pair D dims given base n gs b b' cs

end

variable {tables : RuleTables} {ctx : Context} {n : Node} {st st' : WalkState}

theorem map_eq_ok {ε α β : Type} {x : Except ε α} {f : α → β} {b : β} (h : x.map f = .ok b) :
    ∃ a, x = .ok a ∧ f a = b := by
  cases x with
  | error e => cases h
  | ok a => exact ⟨a, rfl, Except.ok.inj h⟩

theorem callRule_none (h : callRule tables ctx n st = .ok none) : ∀ o ∈ n.output, st.2.get? o = none := by
  rw [callRule] at h
  split at h
  · dsimp only at h
    split at h
    · next hnone =>
      intro o ho
      have hget := List.all_eq_true.mp hnone _ (List.mem_map_of_mem ho)
      exact Option.isNone_iff_eq_none.mp hget
    · obtain ⟨_, -, h⟩ := map_eq_ok h
      cases h
  · split at h
    · cases h
    · split at h
      · next o houtput =>
        split at h
        · next hget =>
          intro o' ho'
          rw [houtput, mem_singleton] at ho'
          rwa [ho']
        · obtain ⟨_, -, h⟩ := map_eq_ok h
          cases h
      · cases h

theorem visit_cases (h : visit tables ctx st n = .ok st') :
    (st' = st ∧ (n.opType = "Constant" ∨ ∀ o ∈ n.output, st.2.get? o = none)) ∨
      ∃ b cs, n.opType ≠ "Constant" ∧ callRule tables ctx n st = .ok (some (b, cs)) ∧
        cs.length = n.input.length ∧ st' = accumulate (n.input.zip cs) (b, st.2) := by
  rw [visit] at h
  split at h
  · next hconst =>
    cases h
    exact .inl ⟨rfl, .inl hconst⟩
  · next hconst =>
    obtain ⟨called, hcall, h⟩ := bind_eq_ok h
    split at h
    · cases h
      exact .inl ⟨rfl, .inr (callRule_none hcall)⟩
    · next b cs =>
      split at h
      · next hlen =>
        cases h
        exact .inr ⟨b, cs, hconst, hcall, hlen, rfl⟩
      · cases h

variable {sem : TensorSemantics S V} {pair : V →+ V →+ R} {D : Node → List V → List V} {dims : String → S}
  {given : List String} {base e : String → Option V} {nodes : List Node} {δ : String → V} {cs : List (Option String)}

theorem callRule_lawful (hlaw : LawfulTables sem pair D dims given base tables ctx nodes) (hn : n ∈ nodes)
    (hheld : Held given st) {b : GraphBuilder} (hcall : callRule tables ctx n st = .ok (some (b, cs)))
    (hlen : cs.length = n.input.length) :
    LawfulCall sem pair D dims given base n (n.output.map st.2.get?) st.1 b cs := by
  have hgiven : ∀ g, some g ∈ n.output.map st.2.get? → Available given st.1 g := by
    intro g hg
    obtain ⟨o, -, ho⟩ := List.mem_map.mp hg
    exact (hheld o g ho).2
  rw [callRule] at hcall
  split at hcall
  · next rule hrule =>
    dsimp only at hcall
    split at hcall
    · cases hcall
    · obtain ⟨r, hr, hsome⟩ := map_eq_ok hcall
      cases hsome
      exact hlaw.multi n hn rule hrule _ _ _ _ (length_map _) hgiven hr hlen
  · split at hcall
    · cases hcall
    · next rule hrule =>
      split at hcall
      · next o houtput =>
        split at hcall
        · cases hcall
        · next g hget =>
          obtain ⟨r, hr, hsome⟩ := map_eq_ok hcall
          cases hsome
          rw [houtput, map_singleton, hget] at hgiven ⊢
          exact hlaw.single n hn rule hrule o houtput g _ _ _ (hgiven g (mem_singleton_self _)) hr hlen
      · cases hcall

theorem mem_zip_available {b : GraphBuilder} (h : ∀ c, some c ∈ cs → Available given b c) :
    ∀ p ∈ n.input.zip cs, ∀ c, p.2 = some c → Available given b c := by
  intro p hp c hc
  obtain ⟨x, c'⟩ := p
  have hmem := (of_mem_zip hp).2
  exact h c (hc ▸ hmem)

theorem visit_emits (hlaw : LawfulTables sem pair D dims given base tables ctx nodes) (hn : n ∈ nodes)
    (hheld : Held given st) (h : visit tables ctx st n = .ok st') :
    Extends sem given st.1 st'.1 ∧ Held given st' := by
  cases visit_cases h with
  | inl hsame =>
    rw [hsame.1]
    exact ⟨.refl _, hheld⟩
  | inr hcalled =>
    obtain ⟨b, cs, -, hcall, hlen, rfl⟩ := hcalled
    have hlawful := callRule_lawful hlaw hn hheld hcall hlen
    have hheld' : Held given (b, st.2) := fun x g hg => ⟨(hheld x g hg).1, hlawful.emits.available_mono (hheld x g hg).2⟩
    obtain ⟨hext, hheld''⟩ : Extends sem given b (accumulate (n.input.zip cs) (b, st.2)).1 ∧ _ :=
      accumulate_emits hheld' (mem_zip_available hlawful.held)
    exact ⟨hlawful.emits.trans hext, hheld''⟩

/-- Inputs not yet visited over are paired with their derivative, the others with their perturbation. -/
def weight (done : List Node) (τ δ : String → V) (x : String) : V := if x ∈ outs done then δ x else τ x

theorem pairings_inputs {w : String → V} (hlen : cs.length = n.input.length) :
    pairings pair ((n.input.zip cs).map fun p => valueOf e p.2)
        ((n.input.zip cs).map fun p => if p.1 = "" then 0 else w p.1) =
      pairings pair (cs.map (valueOf e)) (inputDirections w n) := by
  have hsnd : (n.input.zip cs).map (fun p => valueOf e p.2) = cs.map (valueOf e) := by
    have h : ((n.input.zip cs).map Prod.snd).map (valueOf e) = cs.map (valueOf e) := by
      rw [map_snd_zip (Nat.le_of_eq hlen)]
    rwa [List.map_map] at h
  have hfst : (n.input.zip cs).map (fun p => if p.1 = "" then 0 else w p.1) = inputDirections w n := by
    have h : ((n.input.zip cs).map Prod.fst).map (fun x => if x = "" then 0 else w x) = inputDirections w n := by
      rw [map_fst_zip (Nat.le_of_eq hlen.symm)]
      rfl
    rwa [List.map_map] at h
  rw [hsnd, hfst]

theorem visit_balance (hlaw : LawfulTables sem pair D dims given base tables ctx nodes)
    (ht : Topological nodes) (hn : n ∈ nodes) {done : List Node}
    (hfresh : ∀ x ∈ nonempty n.output, x ∉ outs done) (hinput : ∀ x ∈ n.input, x ∉ outs done)
    {U : Finset String} (hU : ∀ x ∈ n.output ++ n.input, x ∈ U) (hheld : Held given st)
    (hvalued : ∀ x, Valued sem e (dims x) (st.2.get? x)) (h : visit tables ctx st n = .ok st')
    (he : Models sem given base e st'.1) :
    balance pair U (gradients e st'.2) (weight (n :: done) (forwardMode D δ nodes) δ) =
        balance pair U (gradients e st.2) (weight done (forwardMode D δ nodes) δ) ∧
      ∀ x, Valued sem e (dims x) (st'.2.get? x) := by
  have houts : ∀ x, x ∈ outs (n :: done) ↔ x ∈ nonempty n.output ∨ x ∈ outs done := fun x => by
    rw [outs, flatMap_cons, mem_append]
    rfl
  cases visit_cases h with
  | inl hsame =>
    obtain ⟨rfl, hwhy⟩ := hsame
    refine ⟨balance_congr fun x _ => ?_, hvalued⟩
    by_cases hx : x ∈ nonempty n.output
    · cases hwhy with
      | inl hconst =>
        refine .inr ?_
        rw [weight, weight, if_pos ((houts x).mpr (.inl hx)), if_neg (hfresh x hx),
          forwardMode_output ht hn hx, derivative, if_pos hconst, getD_nil, add_zero]
      | inr hnone =>
        refine .inl ?_
        rw [gradients, hnone x (mem_filter.mp hx).1]
        rfl
    · refine .inr ?_
      rw [weight, weight]
      simp only [houts, hx, false_or]
  | inr hcalled =>
    obtain ⟨b, cs, hconst, hcall, hlen, rfl⟩ := hcalled
    have hlawful := callRule_lawful hlaw hn hheld hcall hlen
    have hheld' : Held given (b, st.2) := fun x g hg => ⟨(hheld x g hg).1, hlawful.emits.available_mono (hheld x g hg).2⟩
    have hzip := mem_zip_available (n := n) hlawful.held
    have heb : Models sem given base e b := Models.of_extends (accumulate_emits hheld' hzip).1 he
    have hgs : ValuedAll sem dims e n.output (n.output.map st.2.get?) := by
      intro p hp _
      rw [← List.map_id n.output, List.map_map, zip_map', List.mem_map] at hp
      obtain ⟨o, -, rfl⟩ := hp
      exact hvalued o
    have hcs := hlawful.computes e heb hgs
    have hUzip : ∀ p ∈ n.input.zip cs, p.1 ∈ U := fun p hp =>
      hU p.1 (mem_append_right _ (of_mem_zip hp).1)
    obtain ⟨hbal, hval⟩ := accumulate_balance (w := weight (n :: done) (forwardMode D δ nodes) δ) pair hheld' hzip he
      hvalued hcs hUzip
    refine ⟨?_, hval⟩
    rw [hbal, pairings_inputs hlen]
    have hdirs : inputDirections (weight (n :: done) (forwardMode D δ nodes) δ) n =
        inputDirections (forwardMode D δ nodes) n := by
      apply map_congr_left
      intro x hx
      have hnot : x ∉ outs (n :: done) := fun hmem => ((houts x).mp hmem).elim
        (fun hout => ht.own n hn x hout hx) (hinput x hx)
      rw [weight, if_neg hnot]
    have homitted : ∀ i : Nat, n.input[i]? = some "" →
        (inputDirections (forwardMode D δ nodes) n)[i]? = some 0 := by
      intro i hi
      rw [inputDirections, getElem?_map, hi, Option.map_some, if_pos rfl]
    have hadjoint := hlawful.adjoint e heb hgs (inputDirections (forwardMode D δ nodes) n)
      (by rw [inputDirections, length_map]) homitted
    have hgrads : (n.output.map st.2.get?).map (valueOf e) = n.output.map (gradients e st.2) := by
      rw [List.map_map]
      rfl
    rw [hdirs, ← hadjoint, hgrads,
      ← balance_gather (fun y hy => hU y (mem_append_left _ hy)), ← balance_add]
    apply balance_congr
    intro x _
    by_cases hempty : x = ""
    · refine .inl ?_
      rw [gradients, hempty]
      cases hget : st.2.get? "" with
      | none => rfl
      | some g => exact absurd rfl (hheld "" g hget).1
    · refine .inr ?_
      rw [weight, weight]
      by_cases hx : x ∈ nonempty n.output
      · have hnd : (nonempty n.output).Nodup := (nodup_flatMap.mp ht.single).1 n hn
        rw [if_pos ((houts x).mpr (.inl hx)), if_neg (hfresh x hx), forwardMode_output ht hn hx,
          gather_of_single hx hnd, derivative, if_neg hconst]
      · have hnot : x ∉ n.output := fun hmem => hx (mem_filter.mpr ⟨hmem, by simpa using hempty⟩)
        rw [gather_of_notMem hnot, add_zero]
        simp only [houts, hx, false_or]

end Onnxsim.Gradients.ChainRule
