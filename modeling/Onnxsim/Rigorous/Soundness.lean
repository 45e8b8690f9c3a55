import Onnxsim.Overflow.Accumulators
import Onnxsim.Rigorous.Machine

namespace Onnxsim.Rigorous.Tensors

open List Overflow.Arrays Overflow.Operators Rigorous.Float32 Covering
open Kernels Contractions TreeSums Operations

variable {A : Arithmetic} {slip : ℚ → ℚ}

/-- Every element of `p` stands for the one of `X`. -/
structure Enclosed (X : RTensor) (p : PTensor) : Prop where
  shape : X.shape = p.shape
  encloses : ∀ i ∈ indices p.shape, Encloses (X.x i) (p.v i) (errAt p.e i)

/-- Every element of `k` is as near to the one of `X` as its error says. -/
structure Within (X : RTensor) (k : KTensor) : Prop where
  shape : X.shape = k.shape
  within : ∀ i ∈ indices k.shape, |X.x i - k.v i| ≤ errAt k.e i

theorem fromNumpy_within (h : Lawful A slip) (shape : List Nat) (x : Index → ℚ) :
    Within (Constant.fromNumpy shape x).intended ((Constant.fromNumpy shape x).tensor A) := by
  refine ⟨rfl, fun i hi => ?_⟩
  change castError A (x i) ≤ errAt (if _ then none else some _) i
  split
  · next hexact =>
    have hzero := List.all_eq_true.mp hexact i hi
    rw [decide_eq_true_iff] at hzero
    exact hzero.le
  · exact le_up32 h _

theorem constant_within (h : Lawful A slip) {k : Constant} (hk : k.Proper A) : Within k.intended (k.tensor A) := by
  induction k with
  | fromNumpy shape x => exact fromNumpy_within h shape x
  | exact shape x =>
    refine ⟨rfl, fun i hi => ?_⟩
    change |x i - A.cast (x i)| ≤ 0
    rw [hk i hi, sub_self, abs_zero]
  | index k shape source ih =>
    obtain ⟨hsame, hwithin⟩ := ih hk.1
    refine ⟨rfl, fun i hi => ?_⟩
    have hsource := hk.2 i hi
    rw [hsame] at hsource
    have herr : errAt ((k.tensor A).e.map (· ∘ source)) i = errAt (k.tensor A).e (source i) := by
      rw [errAt, errAt, Option.map_map]
      rfl
    change _ ≤ errAt ((k.tensor A).e.map (· ∘ source)) i
    rw [herr]
    exact hwithin (source i) hsource

variable {X Y : RTensor} {p q r : PTensor}

theorem errAt_some (e : Index → ℚ) (i : Index) : errAt (some e) i = e i := rfl

theorem adds_enclosed (h : Lawful A slip) (hX : Enclosed X p) (hY : Enclosed Y q) (hr : Adds A p q r) :
    Enclosed (X.add Y) r := by
  obtain ⟨⟨hshape, hinside⟩, e, he, hvalues⟩ := hr
  refine ⟨by rw [hshape, ← hX.shape, ← hY.shape, RTensor.add], fun i hi => ?_⟩
  obtain ⟨hv, hfin⟩ := hvalues i hi
  obtain ⟨hleft, hright⟩ := hinside i hi
  rw [hv] at hfin ⊢
  rw [he, errAt_some, RTensor.add, hX.shape, hY.shape]
  exact add_encloses h (hX.encloses _ hleft) (hY.encloses _ hright) hfin

/-- Every product of the broadcast makes up for its underflows. -/
def MulSafe (slip : ℚ → ℚ) (p : PTensor) (k : KTensor) : Prop :=
  ∀ i ∈ indices (broadcastBatch p.shape k.shape),
    MulCovered slip (p.v (alignIndex p.shape i)) (errAt p.e (alignIndex p.shape i))
      (k.v (alignIndex k.shape i)) (errAt k.e (alignIndex k.shape i))

theorem multiplies_enclosed (h : Lawful A slip) {k : KTensor} (hX : Enclosed X p) (hY : Within Y k)
    (hsafe : MulSafe slip p k) (hr : Multiplies A p k r) : Enclosed (X.mul Y) r := by
  obtain ⟨⟨hshape, hinside⟩, e, he, hvalues⟩ := hr
  refine ⟨by rw [hshape, ← hX.shape, ← hY.shape, RTensor.mul], fun i hi => ?_⟩
  obtain ⟨hv, hfin⟩ := hvalues i hi
  obtain ⟨hleft, hright⟩ := hinside i hi
  rw [hv] at hfin ⊢
  rw [he, errAt_some, RTensor.mul, hX.shape, hY.shape]
  rw [hshape] at hi
  exact mul_encloses h (hX.encloses _ hleft) (hY.within _ hright) (hsafe i hi) hfin

/-- The divisor survives its cast, and every quotient makes up for its underflows. -/
def DivSafe (A : Arithmetic) (slip : ℚ → ℚ) (p : PTensor) (f : ℚ) : Prop :=
  Divisor A f ∧ ∀ i ∈ indices p.shape, DivCovered A slip (p.v i) (errAt p.e i) f

theorem divides_enclosed (h : Lawful A slip) {f : ℚ} (hX : Enclosed X p) (hsafe : DivSafe A slip p f)
    (hr : Divides A p f r) : Enclosed (X.div f) r := by
  obtain ⟨hshape, e, he, hvalues⟩ := hr
  refine ⟨by rw [hshape, ← hX.shape, RTensor.div], fun i hi => ?_⟩
  obtain ⟨hv, hfin⟩ := hvalues i hi
  rw [hshape] at hi
  rw [hv] at hfin ⊢
  rw [he, errAt_some, RTensor.div]
  exact div_encloses h hsafe.1 (hX.encloses i hi) (hsafe.2 i hi) hfin

variable {shape : List Nat} {keepdim : Bool}

theorem cons_mem_indices {n k : Nat} {idx : List Nat} :
    k :: idx ∈ indices (n :: shape) ↔ k < n ∧ idx ∈ indices shape := by
  rw [indices, mem_flatMap]
  constructor
  · intro h
    obtain ⟨j, hj, hmem⟩ := h
    obtain ⟨idx', hidx', heq⟩ := List.mem_map.mp hmem
    obtain ⟨rfl, rfl⟩ := List.cons.inj heq
    exact ⟨mem_range.mp hj, hidx'⟩
  · intro h
    exact ⟨k, mem_range.mpr h.1, List.mem_map.mpr ⟨idx, h.2, rfl⟩⟩

theorem exists_cons_of_mem_indices {n : Nat} {i : List Nat} (h : i ∈ indices (n :: shape)) :
    ∃ k idx, i = k :: idx ∧ k < n ∧ idx ∈ indices shape := by
  obtain ⟨k, hk, hmem⟩ := mem_flatMap.mp h
  obtain ⟨idx, hidx, rfl⟩ := List.mem_map.mp hmem
  exact ⟨k, idx, rfl, mem_range.mp hk, hidx⟩

theorem mem_indices_of_mem_fiber {reduced : List Bool} {i j : Index} (hlen : reduced.length = shape.length)
    (hi : i ∈ indices (reducedShape keepdim shape reduced)) (hj : j ∈ fiber keepdim shape reduced i) :
    j ∈ indices shape := by
  induction shape generalizing reduced i j with
  | nil =>
    rw [length_nil, length_eq_zero_iff] at hlen
    rw [hlen] at hj
    exact hj
  | cons d shape ih =>
    cases reduced with
    | nil => cases hlen
    | cons b reduced =>
      rw [length_cons, length_cons, Nat.succ_inj] at hlen
      cases b with
      | true =>
        rw [fiber, mem_flatMap] at hj
        obtain ⟨k, hk, hmem⟩ := hj
        obtain ⟨j', hj', rfl⟩ := List.mem_map.mp hmem
        refine cons_mem_indices.mpr ⟨mem_range.mp hk, ih hlen ?_ hj'⟩
        rw [reducedShape] at hi
        cases keepdim with
        | true =>
          obtain ⟨z, idx, rfl, -, hidx⟩ := exists_cons_of_mem_indices hi
          exact hidx
        | false => exact hi
      | false =>
        rw [fiber] at hj
        obtain ⟨j', hj', rfl⟩ := List.mem_map.mp hj
        rw [reducedShape] at hi
        · obtain ⟨z, idx, rfl, hz, hidx⟩ := exists_cons_of_mem_indices hi
          exact cons_mem_indices.mpr ⟨hz, ih hlen hidx hj'⟩
        · simp

theorem length_reducedAxes (rank : Nat) (dims : Option (List Int)) : (reducedAxes rank dims).length = rank := by
  cases dims with
  | none => exact length_replicate
  | some dims => rw [reducedAxes, length_map, length_range]

/-- Every sum has at most as many terms as a tensor can have. -/
def SumSafe (p : PTensor) (dims : Option (List Int)) (keepdim : Bool) : Prop :=
  ∀ i ∈ indices (reducedShape keepdim p.shape (reducedAxes p.shape.length dims)),
    (fiber keepdim p.shape (reducedAxes p.shape.length dims) i).length ≤ NUMEL_LIMIT

theorem sums_enclosed (h : Lawful A slip) {dims : Option (List Int)} (hX : Enclosed X p)
    (hsafe : SumSafe p dims keepdim) (hr : Sums A p dims keepdim r) : Enclosed (X.sum dims keepdim) r := by
  obtain ⟨hshape, e, he, hvalues⟩ := hr
  refine ⟨by rw [hshape, ← hX.shape, RTensor.sum], fun i hi => ?_⟩
  obtain ⟨levels, g, terms, htree, hg, hterms, hfin⟩ := hvalues i hi
  rw [hshape] at hi
  rw [he, errAt_some, RTensor.sum, hX.shape]
  change Encloses ((fiber keepdim p.shape (reducedAxes p.shape.length dims) i).map X.x).sum (r.v i) (e i)
  have hmem : ∀ j ∈ fiber keepdim p.shape (reducedAxes p.shape.length dims) i, j ∈ indices p.shape :=
    fun j hj => mem_indices_of_mem_fiber (length_reducedAxes _ _) hi hj
  generalize hfib : fiber keepdim p.shape (reducedAxes p.shape.length dims) i = is at *
  have hlimit := treeTerms_le_limit htree (by rw [length_map, ← hfib]; exact hsafe i hi)
  rw [length_map] at hlimit
  rw [← length_attach (l := is)] at hlimit hg hfin
  rw [← List.attach_map_val (l := is)] at htree
  rw [← List.attach_map_val (l := is)]
  refine sum_encloses h (v := fun j => p.v j.1) (e := p.e.map fun e j => e j.1) (fun j => ?_) htree hlimit hg ?_ hfin
  · have herr : errAt (p.e.map fun e (j : { j // j ∈ is }) => e j.1) j = errAt p.e j.1 := by
      rw [errAt, errAt, Option.map_map]
      rfl
    rw [herr]
    exact hX.encloses j.1 (hmem j.1 j.2)
  · have herrs : (p.e.map fun e (j : { j // j ∈ is }) => e j.1).map (fun e => is.attach.map e) =
        p.e.map fun e => is.map e := by
      rw [Option.map_map]
      refine congrArg (Option.map · p.e) (funext fun e => ?_)
      exact List.attach_map_val
    rw [herrs, List.attach_map_val]
    exact hterms

variable {k : KTensor}

def ContractionSafe (slip : ℚ → ℚ) (c : Contraction) (p : PTensor) (k : KTensor) : Prop :=
  ∀ i ∈ indices c.shape, ContractionCovered slip (c.terms i) (fun t => p.v t.1) (p.e.map fun e t => e t.1)
    (fun t => k.v t.2) (k.e.map fun e t => e t.2)

theorem errAt_map {ι κ : Type} (e : Option (ι → ℚ)) (f : κ → ι) (j : κ) : errAt (e.map fun e t => e (f t)) j = errAt e (f j) := by
  rw [errAt, errAt, Option.map_map]
  rfl

theorem attach_terms {ι : Type} (is : List ι) (v k : ι → ℚ) (e ke : Option (ι → ℚ)) (g terms : ℚ)
    (h : ContractionTerms A g is v e k ke terms) :
    ContractionTerms A g is.attach (fun i => v i.1) (e.map fun e i => e i.1) (fun i => k i.1)
      (ke.map fun e i => e i.1) terms := by
  obtain ⟨s, hs, hrest⟩ := h
  have herr : ∀ i : { i // i ∈ is }, (e.map fun e (i : { i // i ∈ is }) => e i.1).map (· i) = e.map (· i.1) := by
    intro i
    rw [Option.map_map]
    rfl
  refine ⟨s, ?_, ?_⟩
  · simp only [herr]
    rw [← List.attach_map_val (l := is)] at hs
    exact hs
  · cases ke with
    | none => exact hrest
    | some ke =>
      obtain ⟨t, ht, hadd⟩ := hrest
      refine ⟨t, ?_, hadd⟩
      simp only [herr]
      rw [← List.attach_map_val (l := is)] at ht
      exact ht

theorem attach_covered {ι : Type} {is : List ι} {v k : ι → ℚ} {e ke : Option (ι → ℚ)}
    (h : ContractionCovered slip is v e k ke) :
    ContractionCovered slip is.attach (fun i => v i.1) (e.map fun e i => e i.1) (fun i => k i.1)
      (ke.map fun e i => e i.1) := by
  rw [ContractionCovered, contractionLosses, contractionSlip, contractionTotal] at h ⊢
  simp only [errAt_map, length_attach]
  rw [← List.attach_map_val (l := is), ← List.attach_map_val (l := is), ← List.attach_map_val (l := is),
    ← List.attach_map_val (l := is), ← List.attach_map_val (l := is)] at h
  exact h

theorem contracts_enclosed (h : Lawful A slip) {c : Contraction} (hsize : ∀ i ∈ indices c.shape, (c.terms i).length = c.size)
    (hX : Enclosed X p) (hY : Within Y k) (hsafe : ContractionSafe slip c p k) (hr : Contracts A c p k r) :
    Enclosed (X.contract Y c) r := by
  obtain ⟨hshape, hinside, e, g, he, hg, hvalues⟩ := hr
  refine ⟨hshape.symm, fun i hi => ?_⟩
  rw [hshape] at hi
  obtain ⟨terms, hdots, hterms, hfin⟩ := hvalues i hi
  rw [he, errAt_some]
  change Encloses ((c.terms i).map fun t => X.x t.1 * Y.x t.2).sum (r.v i) (e i)
  rw [← hsize i hi] at hg hfin
  have hmem := hinside i hi
  have hcovered := attach_covered (hsafe i hi)
  have hterms' := attach_terms _ _ _ _ _ _ _ hterms
  generalize c.terms i = l at *
  rw [← length_attach (l := l)] at hg hfin
  rw [← List.attach_map_val (l := l)] at hdots
  rw [← List.attach_map_val (l := l)]
  refine contraction_encloses h (x := fun t => X.x t.1.1) hg (fun t => ?_) (fun t => ?_) hcovered hdots hterms' hfin
  · rw [errAt_map, errAt_map]
    exact hX.encloses _ (hmem t.1 t.2).1
  · rw [errAt_map, errAt_map]
    exact hY.within _ (hmem t.1 t.2).2

theorem matmul_size (s t : List Nat) (i : Index) : ((matmul s t).terms i).length = (matmul s t).size := by
  rw [matmul, length_map, length_range]

theorem contraction_size (eq : Equation) (s t : List Nat) (i : Index) :
    ((eq.contraction s t).terms i).length = (eq.contraction s t).size := by
  rw [Equation.contraction, length_map, length_indices]
  rfl

end Onnxsim.Rigorous.Tensors

namespace Onnxsim.Rigorous.Soundness

open List Option Lib.Stores Overflow.Arrays Overflow.Operators
open Rigorous.Float32 Covering Kernels Contractions
open Operations Tensors Machine

variable {A : Arithmetic} {slip : ℚ → ℚ} {m m' : State} {x y : Reals} {o : Obj} {X : RTensor}

section

/-- The object lies in memory that is in use, and stands for its real numbers. -/
structure Stands (m : State) (x : Reals) (o : Obj) : Prop where
  below : ∀ i ∈ indices o.v.shape, o.v.address i < m.next
  errors : ∀ e, o.e = some e → ∀ i ∈ indices o.v.shape, e.address i < m.next
  enclosed : Enclosed (x.tensor o.v) (m.tensor o)

/-- Every object stands for the real tensor that the same computation makes. -/
structure Sound (m : State) (x : Reals) : Prop where
  objs : x.objs = m.objs.map Obj.v
  stands : ∀ o ∈ m.objs, Stands m x o

theorem error_some {e : View} (he : o.e = some e) (i : Index) : errAt (m.tensor o).e i = m.errs (e.address i) := by
  rw [State.tensor, he]
  rfl

theorem error_none (he : o.e = none) (i : Index) : errAt (m.tensor o).e i = 0 := by
  rw [State.tensor, he]
  rfl

def Keeps (n : Nat) (s t : Nat → ℚ) : Prop := ∀ a < n, t a = s a

theorem Keeps.refl (n : Nat) (s : Nat → ℚ) : Keeps n s s := fun _ _ => rfl

theorem Stands.renew (h : Stands m x o) (hnext : m.next ≤ m'.next)
    (hnew : ∀ i ∈ indices o.v.shape,
      Encloses (y.cells (o.v.address i)) (m'.vals (o.v.address i)) (errAt (m'.tensor o).e i)) : Stands m' y o where
  below i hi := (h.below i hi).trans_le hnext
  errors e he i hi := (h.errors e he i hi).trans_le hnext
  enclosed := ⟨rfl, hnew⟩

theorem Stands.keep (h : Stands m x o) (hnext : m.next ≤ m'.next) (hv : Keeps m.next m.vals m'.vals)
    (he : Keeps m.next m.errs m'.errs) (hx : Keeps m.next x.cells y.cells) : Stands m' y o := by
  refine h.renew hnext fun i hi => ?_
  have hbelow := h.below i hi
  rw [hv _ hbelow, hx _ hbelow]
  have herr : errAt (m'.tensor o).e i = errAt (m.tensor o).e i := by
    cases ho : o.e with
    | none => rw [error_none ho, error_none ho]
    | some e => rw [error_some ho, error_some ho, he _ (h.errors e ho i hi)]
  rw [herr]
  exact h.enclosed.encloses i hi

theorem Sound.append (h : Sound m x) (hnext : m.next ≤ m'.next) (hv : Keeps m.next m.vals m'.vals)
    (he : Keeps m.next m.errs m'.errs) (hx : Keeps m.next x.cells y.cells) (hobjs : m'.objs = m.objs ++ [o])
    (hreals : y.objs = x.objs ++ [o.v]) (ho : Stands m' y o) : Sound m' y where
  objs := by rw [hreals, hobjs, h.objs, map_append, map_singleton]
  stands p hp := by
    rw [hobjs, mem_append] at hp
    cases hp with
    | inl hold => exact (h.stands p hold).keep hnext hv he hx
    | inr hnew => rwa [mem_singleton.mp hnew]

variable {a : Nat}

theorem Sound.real (h : Sound m x) (ho : m.objs[a]? = some o) : x.objs[a]? = some o.v := by
  rw [h.objs, getElem?_map, ho]
  rfl

theorem Sound.at (h : Sound m x) (ho : m.objs[a]? = some o) : Stands m x o :=
  h.stands o (mem_of_getElem? ho)

theorem Sound.read (h : Sound m x) {p : PTensor} (hp : m.read a = some p) (hX : x.read a = some X) : Enclosed X p := by
  obtain ⟨o, ho, rfl⟩ := map_eq_some_iff.mp hp
  rw [Reals.read, h.real ho] at hX
  cases hX
  exact (h.at ho).enclosed

end

variable {shape : List Nat} {sel : Selection} {e : Option View}

section

variable {n n' : Nat} {s t : Nat → ℚ}

section

variable {α : Type} {R : α → View → (Nat → ℚ) → (Nat → ℚ) → Prop} {a : Option α} {v : Option View}

theorem errors_of_none (h : Errors R none v s t) : v = none ∧ t = s := by
  cases h
  exact ⟨rfl, rfl⟩

theorem errors_of_some {b : α} (h : Errors R (some b) v s t) : ∃ w, v = some w ∧ R b w s t := by
  cases h with
  | some h => exact ⟨_, rfl, h⟩

theorem errors_to_some {w : View} (h : Errors R a (some w) s t) : ∃ b, a = some b ∧ R b w s t := by
  cases h with
  | some h => exact ⟨_, rfl, h⟩

theorem errors_keeps (hR : ∀ a v s t, R a v s t → Keeps n s t) (h : Errors R a v s t) : Keeps n s t := by
  cases h with
  | none => exact Keeps.refl n s
  | some h => exact hR _ _ _ _ h

end

variable {f : Index → ℚ}

theorem written_keeps {is : List Index} {place : Index → Nat} (h : Written is place f s t)
    (hplace : ∀ i ∈ is, n ≤ place i) : Keeps n s t :=
  fun a ha => h.outside a fun i hi heq => absurd (hplace i hi) (by omega)

theorem puts_keeps {v : View} (h : Puts n n' shape f v s t) : Keeps n s t :=
  written_keeps h.written (h.shape_eq ▸ h.fresh.unused)

theorem picks_keeps {o v : View} (h : Picks n n' sel o v s t) : Keeps n s t := by
  cases h.place with
  | inl hview =>
    have hsame : t = s := h.written.unique (Written.refl fun i hi => by rw [hview i hi])
    rw [hsame]
    exact Keeps.refl n s
  | inr hfresh => exact written_keeps h.written (h.shape_eq ▸ hfresh.unused)

end

/-- The conditions of the operations' error bounds, in the state before. -/
def OperationSafe (A : Arithmetic) (slip : ℚ → ℚ) (m : State) : Operation → Prop
  | .tensor _ _ _ => True
  | .add _ _ => True
  | .mul a k => k.Proper A ∧ ∀ p, m.read a = some p → MulSafe slip p (k.tensor A)
  | .div a f => ∀ p, m.read a = some p → DivSafe A slip p f
  | .matmul a k => k.Proper A ∧ ∀ p, m.read a = some p →
      ContractionSafe slip (matmul p.shape (k.tensor A).shape) p (k.tensor A)
  | .einsum eq a k => k.Proper A ∧ ∀ p q, m.read a = some p → parseEquation eq = some q →
      ContractionSafe slip (q.contraction p.shape (k.tensor A).shape) p (k.tensor A)
  | .sum a dims keepdim => ∀ p, m.read a = some p → SumSafe p dims keepdim

variable {R : RTensor} {r : PTensor} {op : Operation} {v : View}

theorem computes_enclosed (h : Lawful A slip) (hs : Sound m x) (hsafe : OperationSafe A slip m op)
    (hr : Computes A m r op) (hR : x.compute op = some R) : Enclosed R r := by
  cases op with
  | tensor shape y zeros =>
    cases hR
    rw [show r = _ from hr]
    refine ⟨rfl, fun i _ => ?_⟩
    cases zeros with
    | true => exact Encloses.exact (y i)
    | false => exact Encloses.exact (y i)
  | add a b =>
    obtain ⟨p, q, hp, hq, hadds⟩ := hr
    obtain ⟨X, hX, hR⟩ := bind_eq_some_iff.mp hR
    obtain ⟨Y, hY, rfl⟩ := map_eq_some_iff.mp hR
    exact adds_enclosed h (hs.read hp hX) (hs.read hq hY) hadds
  | mul a k =>
    obtain ⟨p, hp, hmuls⟩ := hr
    obtain ⟨X, hX, rfl⟩ := map_eq_some_iff.mp hR
    exact multiplies_enclosed h (hs.read hp hX) (constant_within h hsafe.1) (hsafe.2 p hp) hmuls
  | div a f =>
    obtain ⟨p, hp, hdivs⟩ := hr
    obtain ⟨X, hX, rfl⟩ := map_eq_some_iff.mp hR
    exact divides_enclosed h (hs.read hp hX) (hsafe p hp) hdivs
  | matmul a k =>
    obtain ⟨p, hp, hdots⟩ := hr
    obtain ⟨X, hX, rfl⟩ := map_eq_some_iff.mp hR
    have hXp := hs.read hp hX
    have hk := constant_within h hsafe.1
    rw [hXp.shape, hk.shape]
    exact contracts_enclosed h (fun i _ => matmul_size _ _ i) hXp hk (hsafe.2 p hp) hdots
  | einsum eq a k =>
    obtain ⟨p, q, hp, hq, hdots⟩ := hr
    obtain ⟨X, hX, hR⟩ := bind_eq_some_iff.mp hR
    obtain ⟨q', hq', rfl⟩ := map_eq_some_iff.mp hR
    rw [hq, Option.some.injEq] at hq'
    subst hq'
    have hXp := hs.read hp hX
    have hk := constant_within h hsafe.1
    rw [hXp.shape, hk.shape]
    exact contracts_enclosed h (fun i _ => contraction_size q _ _ i) hXp hk (hsafe.2 p q hp hq) hdots
  | sum a dims keepdim =>
    obtain ⟨p, hp, hsums⟩ := hr
    obtain ⟨X, hX, rfl⟩ := map_eq_some_iff.mp hR
    exact sums_enclosed h (hs.read hp hX) (hsafe p hp) hsums

theorem puts_stands (henclosed : Enclosed R r) (hv : Puts m.next m'.next r.shape r.v v m.vals m'.vals)
    (he : Errors (Puts m.next m'.next r.shape) r.e e m.errs m'.errs) (hgains : x.Gains R v y) :
    Stands m' y ⟨v, e⟩ := by
  have hreal := hgains.written
  rw [henclosed.shape] at hreal
  have hin : ∀ i, i ∈ indices v.shape ↔ i ∈ indices r.shape := fun i => by rw [hv.shape_eq]
  have herr : ∀ i ∈ indices v.shape, errAt (m'.tensor ⟨v, e⟩).e i = errAt r.e i := by
    intro i hi
    cases he' : r.e with
    | none =>
      rw [he'] at he
      exact error_none (errors_of_none he).1 i
    | some f =>
      rw [he'] at he
      obtain ⟨w, hw, hputs⟩ := errors_of_some he
      rw [error_some hw, hputs.written.inside i ((hin i).mp hi)]
      rfl
  refine ⟨hv.fresh.below, fun w hw i hi => ?_, rfl, fun i hi => ?_⟩
  · change e = some w at hw
    rw [hw] at he
    obtain ⟨f, -, hputs⟩ := errors_to_some he
    refine hputs.fresh.below i ?_
    rw [hputs.shape_eq]
    exact (hin i).mp hi
  · rw [herr i hi]
    change Encloses (y.cells (v.address i)) (m'.vals (v.address i)) (errAt r.e i)
    have hi' := (hin i).mp hi
    rw [hreal.inside i hi', hv.written.inside i hi']
    exact henclosed.encloses i hi'

theorem gains_keeps {n : Nat} (hgains : x.Gains R v y) (hfresh : ∀ i ∈ indices v.shape, n ≤ v.address i) :
    Keeps n x.cells y.cells :=
  written_keeps hgains.written (hgains.shape_eq ▸ hfresh)

theorem puts_sound (hs : Sound m x) (henclosed : Enclosed R r) (hnext : m.next ≤ m'.next)
    (hv : Puts m.next m'.next r.shape r.v v m.vals m'.vals)
    (he : Errors (Puts m.next m'.next r.shape) r.e e m.errs m'.errs) (hobjs : m'.objs = m.objs ++ [⟨v, e⟩])
    (hgains : x.Gains R v y) : Sound m' y :=
  hs.append hnext (puts_keeps hv) (errors_keeps (fun _ _ _ _ => puts_keeps) he)
    (gains_keeps hgains hv.fresh.unused) hobjs hgains.objs_eq (puts_stands henclosed hv he hgains)

theorem result_sound (h : Lawful A slip) (hs : Sound m x) (hsafe : OperationSafe A slip m op)
    (hstep : Step A (.result op v e) m m') (hR : x.compute op = some R) (hgains : x.Gains R v y) : Sound m' y := by
  cases hstep with
  | result hr hnext hv he hobjs => exact puts_sound hs (computes_enclosed h hs hsafe hr hR) hnext hv he hobjs hgains

theorem sign_encloses (s : Sign) {z v e : ℚ} (h : Encloses z v e) : Encloses (s.apply z) (s.apply v) e := by
  cases s with
  | negate => exact h.neg
  | pos => exact pos_encloses h
  | neg => exact neg_encloses h

variable {a : Nat}

theorem sign_sound (hs : Sound m x) {s : Sign} (hstep : Step A (.sign s a v) m m') (hX : x.read a = some X)
    (hgains : x.Gains ⟨X.shape, s.apply ∘ X.x⟩ v y) :
    Sound m' y := by
  cases hstep with
  | @sign _ _ _ _ _ o ho hnext hv herrs hobjs =>
    have hstands := hs.at ho
    rw [Reals.read, hs.real ho] at hX
    cases hX
    have hreal := hgains.written
    refine hs.append hnext (puts_keeps hv) (herrs ▸ Keeps.refl _ _) (gains_keeps hgains hv.fresh.unused) hobjs hgains.objs_eq
      ⟨hv.fresh.below, fun w hw i hi => ?_, rfl, fun i hi => ?_⟩
    · rw [hv.shape_eq] at hi
      exact (hstands.errors w hw i hi).trans_le hnext
    · have hi' : i ∈ indices o.v.shape := hv.shape_eq ▸ hi
      have herr : errAt (m'.tensor ⟨v, o.e⟩).e i = errAt (m.tensor o).e i := by
        rw [State.tensor, State.tensor, herrs]
      rw [herr]
      change Encloses (y.cells (v.address i)) (m'.vals (v.address i)) _
      rw [hreal.inside i hi', hv.written.inside i hi']
      exact sign_encloses s (hstands.enclosed.encloses i hi')

theorem picks_below {n n' : Nat} {o : View} {s t : Nat → ℚ} (h : Picks n n' sel o v s t) (hnext : n ≤ n')
    (hinside : sel.Inside shape) (hbelow : ∀ i ∈ indices shape, o.address i < n) :
    ∀ i ∈ indices sel.shape, v.address i < n' := by
  intro i hi
  cases h.place with
  | inl hview =>
    rw [hview i hi]
    exact (hbelow _ (hinside i hi)).trans_le hnext
  | inr hfresh => exact hfresh.below i (h.shape_eq ▸ hi)

theorem take_sound (hs : Sound m x) {k : Taking} (hstep : Step A (.take k a v e) m m') (hX : x.read a = some X)
    (hgains : x.Gains ⟨(k.selection X.shape).shape, X.x ∘ (k.selection X.shape).source⟩ v y) : Sound m' y := by
  cases hstep with
  | @take _ _ _ _ _ _ o ho hinside hnext hv he hobjs =>
    have hstands := hs.at ho
    rw [Reals.read, hs.real ho] at hX
    cases hX
    change x.Gains ⟨(k.selection o.v.shape).shape,
      fun i => x.cells (o.v.address ((k.selection o.v.shape).source i))⟩ v y at hgains
    generalize k.selection o.v.shape = sel at *
    have hreal := hgains.written
    have hkeeps : Keeps m.next x.cells y.cells := by
      cases hv.place with
      | inl hview =>
        have hsame : y.cells = x.cells := hreal.unique (Written.refl fun i hi => by rw [hview i hi])
        rw [hsame]
        exact Keeps.refl _ _
      | inr hfresh => exact gains_keeps hgains hfresh.unused
    have herr : ∀ i ∈ indices sel.shape, errAt (m'.tensor ⟨v, e⟩).e i = errAt (m.tensor o).e (sel.source i) := by
      intro i hi
      cases he' : o.e with
      | none =>
        rw [he'] at he
        rw [error_none (errors_of_none he).1, error_none he']
      | some f =>
        rw [he'] at he
        obtain ⟨w, hw, hpicks⟩ := errors_of_some he
        rw [error_some hw, hpicks.written.inside i hi, error_some he']
    refine hs.append hnext (picks_keeps hv) (errors_keeps (fun _ _ _ _ => picks_keeps) he) hkeeps hobjs
      hgains.objs_eq ⟨fun i hi => ?_, fun w hw i hi => ?_, rfl, fun i hi => ?_⟩
    · exact picks_below hv hnext hinside hstands.below i (hv.shape_eq ▸ hi)
    · change e = some w at hw
      rw [hw] at he
      obtain ⟨f, hf, hpicks⟩ := errors_to_some he
      exact picks_below hpicks hnext hinside (hstands.errors f hf) i (hv.shape_eq ▸ hi)
    · have hi' : i ∈ indices sel.shape := hv.shape_eq ▸ hi
      rw [herr i hi']
      change Encloses (y.cells (v.address i)) (m'.vals (v.address i)) _
      rw [hreal.inside i hi', hv.written.inside i hi']
      exact hstands.enclosed.encloses _ (hinside i hi')

end Onnxsim.Rigorous.Soundness
