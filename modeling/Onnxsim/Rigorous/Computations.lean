import Onnxsim.Rigorous.Soundness

namespace Onnxsim.Rigorous.InPlace

open Option Lib.Stores Overflow.Arrays Rigorous.Float32
open Covering Kernels Contractions Operations
open Tensors Machine Soundness

variable {A : Arithmetic} {slip : ℚ → ℚ} {m m' : State} {x y : Reals} {o q : Obj} {ev : View}

def errorAddress (o : Obj) (i : Index) : Option Nat := o.e.map fun e => e.address i

theorem errorAddress_some (he : o.e = some ev) (i : Index) : errorAddress o i = some (ev.address i) := by
  rw [errorAddress, he]
  rfl

theorem exists_view_of_errorAddress {i : Index} {k : Nat} (h : errorAddress o i = some k) :
    ∃ w, o.e = some w ∧ w.address i = k := map_eq_some_iff.mp h

/-- Whoever shares a value with `o` shares its error. -/
def Follows (m : State) (o : Obj) : Prop :=
  ∀ p ∈ m.objs, ∀ i ∈ indices p.v.shape, ∀ j ∈ indices o.v.shape,
    p.v.address i = o.v.address j → errorAddress p i = errorAddress o j

variable {vals mid errs : Nat → ℚ} {f : Index → ℚ}

theorem grown_of_written (h : Lawful A slip) {x' : Index → ℚ} {y' : Index → ℚ} {e : ℚ} {is : List Index} {k : Nat}
    (hmid : Written is ev.address (fun i => A.add (m.errs (ev.address i)) (resultTerm A (A.add (x' i) (y' i)))) m.errs mid)
    (he0 : 0 ≤ e) (he : m.errs k = e) : 0 ≤ mid k ∧ (1 - U) * e ≤ mid k := by
  refine hmid.cases (p := fun s => 0 ≤ s ∧ (1 - U) * e ≤ s) (fun i _ hk => ?_) (fun _ => ?_)
  · have hresult := (sum_under h (v := x' i) (w := y' i)).1
    have herr : m.errs (ev.address i) = e := by rw [hk, he]
    have hround := (abs_le.mp (h.add e (resultTerm A (A.add (x' i) (y' i))))).1
    rw [abs_of_nonneg (add_nonneg he0 hresult)] at hround
    have hscaled : 0 ≤ (1 - U) * resultTerm A (A.add (x' i) (y' i)) := mul_nonneg (by linarith [U_le_one]) hresult
    have hpos : 0 ≤ (1 - U) * e := mul_nonneg (by linarith [U_le_one]) he0
    rw [herr]
    constructor
    · linarith
    · linarith
  · rw [he]
    exact ⟨he0, by linarith [mul_nonneg U_pos.le he0]⟩

theorem iadd_elements (h : Lawful A slip) (ho : Stands m x o) (hq : Stands m x q) (hev : o.e = some ev)
    (hbroadcast : Broadcasts o.v.shape q.v.shape o.v.shape)
    (hvals : Written (indices o.v.shape) o.v.address
      (fun i => A.add (m.vals (o.v.address i)) (m.vals (q.v.address (alignIndex q.v.shape i)))) m.vals vals)
    (hmid : Written (indices o.v.shape) ev.address
      (fun i => A.add (m.errs (ev.address i)) (resultTerm A (vals (o.v.address i)))) m.errs mid)
    (hfin : ∀ i ∈ indices o.v.shape, fin A (plusTerm A (mid (ev.address i))
      (q.e.map fun w => mid (w.address (alignIndex q.v.shape i)))) 2 = some (f i))
    {j : Index} (hj : j ∈ indices o.v.shape) :
    Encloses (x.cells (o.v.address j) + x.cells (q.v.address (alignIndex q.v.shape j))) (vals (o.v.address j)) (f j) ∧
      m.errs (ev.address j) ≤ f j := by
  have hleft := ho.enclosed.encloses j hj
  have hright := hq.enclosed.encloses _ (hbroadcast.2 j hj).2
  rw [error_some hev] at hleft
  have hmid' : Written (indices o.v.shape) ev.address (fun i => A.add (m.errs (ev.address i))
      (resultTerm A (A.add (m.vals (o.v.address i)) (m.vals (q.v.address (alignIndex q.v.shape i)))))) m.errs mid :=
    ⟨fun i hi => by rw [hmid.inside i hi, hvals.inside i hi], hmid.outside⟩
  have hgrown : Grown (errAt (m.tensor q).e (alignIndex q.v.shape j))
      (q.e.map fun w => mid (w.address (alignIndex q.v.shape j))) := by
    refine ⟨fun hnone => error_none (map_eq_none_iff.mp hnone) _, fun s hs => ?_⟩
    obtain ⟨w, hw, rfl⟩ := map_eq_some_iff.mp hs
    rw [error_some hw] at hright ⊢
    exact grown_of_written h hmid' hright.1 rfl
  have hterms := hfin j hj
  rw [hmid'.inside j hj] at hterms
  rw [hvals.inside j hj]
  exact iadd_encloses h hleft hright hgrown hterms

theorem iadd_sound (h : Lawful A slip) (hs : Sound m x) {a b : Nat}
    (hsafe : ∀ o, m.objs[a]? = some o → Follows m o) (hstep : Step A (.iadd a b) m m')
    (hreal : Reals.Step (.iadd a b) x y) : Sound m' y := by
  cases hstep with
  | @iadd _ _ _ o q ev vals mid errs f ho hq hev hbroadcast _ hvals hmid hfin herrs =>
    cases hreal with
    | @iadd _ _ _ o' q' cells ho' hq' hcells =>
      rw [hs.real ho, Option.some.injEq] at ho'
      rw [hs.real hq, Option.some.injEq] at hq'
      subst ho' hq'
      have hfollows := hsafe o ho
      have hnew : ∀ j ∈ indices o.v.shape,
          Encloses (cells (o.v.address j)) (vals (o.v.address j)) (errs (ev.address j)) ∧
            m.errs (ev.address j) ≤ errs (ev.address j) := by
        intro j hj
        rw [hcells.inside j hj, herrs.inside j hj]
        exact iadd_elements h (hs.at ho) (hs.at hq) hev hbroadcast hvals hmid hfin hj
      have hgrow : ∀ k, m.errs k ≤ errs k := by
        intro k
        refine herrs.cases (p := fun s => m.errs k ≤ s) (fun j hj hk => ?_) (fun hout => ?_)
        · rw [← hk, ← herrs.inside j hj]
          exact (hnew j hj).2
        · exact (hmid.outside k hout).ge
      refine ⟨hs.objs, fun p hp => (hs.stands p hp).renew le_rfl fun i hi => ?_⟩
      have hold := (hs.stands p hp).enclosed.encloses i hi
      by_cases hshared : ∃ j ∈ indices o.v.shape, o.v.address j = p.v.address i
      · obtain ⟨j, hj, heq⟩ := hshared
        have herr := hfollows p hp i hi j hj heq.symm
        rw [errorAddress_some hev] at herr
        obtain ⟨w, hw, haddress⟩ := exists_view_of_errorAddress herr
        rw [error_some hw, haddress, ← heq]
        exact (hnew j hj).1
      · have hout : ∀ j ∈ indices o.v.shape, o.v.address j ≠ p.v.address i := fun j hj heq => hshared ⟨j, hj, heq⟩
        have hlarger : errAt (m.tensor p).e i ≤ errAt (State.tensor ⟨vals, errs, m.objs, m.next⟩ p).e i := by
          cases hpe : p.e with
          | none => rw [error_none hpe, error_none hpe]
          | some w =>
            rw [error_some hpe, error_some hpe]
            exact hgrow _
        change Encloses (cells (p.v.address i)) (vals (p.v.address i)) _
        rw [hcells.outside _ hout, hvals.outside _ hout]
        exact hold.mono hlarger

/-- The values that an assignment writes are shared by those that share their errors. -/
def Together (m : State) (o : Obj) (sel : Selection) : Prop :=
  ∀ p ∈ m.objs, ∀ i ∈ indices p.v.shape, ∀ j ∈ indices sel.shape,
    p.v.address i = o.v.address (sel.source j) ↔ errorAddress p i = errorAddress o (sel.source j)

/-- An assignment that is taken for one that `+=` has done does nothing, and one that is done spoils no error. -/
def AssignSafe (m : State) (a : Nat) (sel : Selection) (target : Option View) (b : Nat) : Prop :=
  ∀ o q, m.objs[a]? = some o → m.objs[b]? = some q →
    (Already target q.v → sel.shape = q.v.shape) ∧ (¬ Already target q.v → Together m o sel)

variable {target : Option View} {sel : Selection}

theorem already_sound (hs : Sound m x) {cells : Nat → ℚ} (htarget : Targets sel o.v target)
    (halready : Already target q.v) (hshape : sel.shape = q.v.shape)
    (hcells : Written (indices sel.shape) (fun i => o.v.address (sel.source i))
      (fun i => x.cells (q.v.address (alignIndex q.v.shape i))) x.cells cells) :
    Sound m { x with cells := cells } := by
  obtain ⟨t, ht, hptr, hstrides⟩ := halready
  obtain ⟨-, haddress⟩ := htarget t ht
  have hsame : cells = x.cells := by
    refine hcells.unique (Written.refl fun i hi => ?_)
    have hview : t.address i = q.v.address i := by rw [View.address, View.address, hptr, hstrides]
    have hi' : i ∈ indices q.v.shape := hshape ▸ hi
    rw [alignIndex_self hi', ← hview, haddress i hi]
  rw [hsame]
  exact hs

theorem assign_sound (hs : Sound m x) {a b : Nat} (hsafe : AssignSafe m a sel target b)
    (hstep : Step A (.assign a sel target b) m m') (hreal : Reals.Step (.assign a sel target b) x y) : Sound m' y := by
  cases hreal with
  | @assign _ _ _ _ _ o' q' cells ho' hq' hcells =>
    cases hstep with
    | @already _ _ _ _ _ o q ho hq hinside htarget halready =>
      rw [hs.real ho, Option.some.injEq] at ho'
      rw [hs.real hq, Option.some.injEq] at hq'
      subst ho' hq'
      exact already_sound hs htarget halready ((hsafe o q ho hq).1 halready) hcells
    | @assign _ _ _ _ _ o q ev vals errs ho hq hinside htarget halready hbroadcast _ hvals hev herrs =>
      rw [hs.real ho, Option.some.injEq] at ho'
      rw [hs.real hq, Option.some.injEq] at hq'
      subst ho' hq'
      have htogether := (hsafe o q ho hq).2 halready
      have hvalue := (hs.at hq).enclosed.encloses
      refine ⟨hs.objs, fun p hp => (hs.stands p hp).renew le_rfl fun i hi => ?_⟩
      have hold := (hs.stands p hp).enclosed.encloses i hi
      by_cases hshared : ∃ j ∈ indices sel.shape, o.v.address (sel.source j) = p.v.address i
      · obtain ⟨j, hj, heq⟩ := hshared
        have herr := (htogether p hp i hi j hj).mp heq.symm
        rw [errorAddress_some hev] at herr
        obtain ⟨w, hw, haddress⟩ := exists_view_of_errorAddress herr
        rw [error_some hw, haddress, ← heq]
        change Encloses (cells _) (vals _) (errs _)
        rw [hcells.inside j hj, hvals.inside j hj, herrs.inside j hj]
        exact hvalue _ (hbroadcast.2 j hj).2
      · have hout : ∀ j ∈ indices sel.shape, o.v.address (sel.source j) ≠ p.v.address i :=
          fun j hj heq => hshared ⟨j, hj, heq⟩
        have hsame : errAt (State.tensor ⟨vals, errs, m.objs, m.next⟩ p).e i = errAt (m.tensor p).e i := by
          cases hpe : p.e with
          | none => rw [error_none hpe, error_none hpe]
          | some w =>
            rw [error_some hpe, error_some hpe]
            refine herrs.outside _ fun j hj heq => hout j hj ?_
            refine ((htogether p hp i hi j hj).mpr ?_).symm
            rw [errorAddress_some hpe, errorAddress_some hev, heq]
        rw [hsame]
        change Encloses (cells (p.v.address i)) (vals (p.v.address i)) _
        rw [hcells.outside _ hout, hvals.outside _ hout]
        exact hold

end Onnxsim.Rigorous.InPlace

namespace Onnxsim.Rigorous.Computations

open List Option Lib.Runs Lib.Stores Overflow.Arrays Overflow.Operators
open Rigorous.Float32 Covering Kernels Contractions
open Operations Tensors Machine Soundness
open InPlace

variable {A : Arithmetic} {slip : ℚ → ℚ} {m m' : State} {x y : Reals} {v : View} {R : RTensor} {a : Nat}
  {i : Instruction} {p : PTensor}

def Safe (A : Arithmetic) (slip : ℚ → ℚ) : Instruction → State → Prop
  | .result op _ _, m => OperationSafe A slip m op
  | .times a f _ _, m => f = 1 ∨ f = -1 ∨ OperationSafe A slip m (.mul a (.number f))
  | .sign _ _ _, _ => True
  | .take _ _ _ _, _ => True
  | .iadd a _, m => ∀ o, m.objs[a]? = some o → Follows m o
  | .assign a sel target b, m => AssignSafe m a sel target b

theorem broadcastBatch_nil (shape : List Nat) : broadcastBatch shape [] = shape := by
  rw [broadcastBatch, length_nil, Nat.max_zero, Nat.sub_self, Nat.sub_zero, replicate_zero, nil_append,
    append_nil]
  induction shape with
  | nil => rfl
  | cons d shape ih =>
    rw [length_cons, replicate_succ, zipWith_cons_cons, ih]
    split
    · next hone => rw [hone]
    · rfl

theorem mul_number (X : RTensor) (f : ℚ) :
    (X.mul (Constant.number f).intended).shape = X.shape ∧
      ∀ i ∈ indices X.shape, (X.mul (Constant.number f).intended).x i = X.x i * f := by
  refine ⟨broadcastBatch_nil X.shape, fun i hi => ?_⟩
  change X.x (alignIndex X.shape i) * f = X.x i * f
  rw [alignIndex_self hi]

theorem gains_congr {R' : RTensor} (h : x.Gains R v y) (hshape : R.shape = R'.shape)
    (helements : ∀ i ∈ indices R'.shape, R.x i = R'.x i) : x.Gains R' v y where
  shape_eq := h.shape_eq.trans hshape
  written :=
    ⟨fun i hi => by rw [h.written.inside i (hshape ▸ hi), helements i hi],
      fun k hk => h.written.outside k fun i hi => hk i (hshape ▸ hi)⟩
  objs_eq := h.objs_eq

theorem same_sound (hs : Sound m x) {o : Obj} (ho : m.objs[a]? = some o) :
    Sound { m with objs := m.objs ++ [o] } { x with objs := x.objs ++ [o.v] } := by
  refine hs.append le_rfl (Keeps.refl _ _) (Keeps.refl _ _)
    (Keeps.refl _ _) rfl rfl ?_
  exact (hs.at ho).renew le_rfl (hs.at ho).enclosed.encloses

theorem step_sound (h : Lawful A slip) (hsafe : Safe A slip i m) (hstep : Step A i m m') (hreal : Reals.Step i x y)
    (hs : Sound m x) : Sound m' y := by
  cases hreal with
  | result hR hgains => exact result_sound h hs hsafe hstep hR hgains
  | @same a v e x o ho =>
    cases hstep with
    | same ho' =>
      rw [hs.real ho', Option.some.injEq] at ho
      subst ho
      exact same_sound hs ho'
    | times hone _ _ => exact absurd rfl hone
  | @times a f v e x y X hone hX hgains =>
    cases hstep with
    | same _ => exact absurd rfl hone
    | negated hsign =>
      obtain ⟨hshape, helements⟩ := mul_number X (-1)
      refine sign_sound hs hsign hX (gains_congr hgains hshape fun i hi => ?_)
      rw [helements i hi, mul_neg_one]
      rfl
    | times _ hneg hmul =>
      have hsafe' := (hsafe.resolve_left hone).resolve_left hneg
      refine result_sound h hs hsafe' hmul (R := X.mul (Constant.number f).intended) ?_ hgains
      rw [Reals.compute, hX, map_some]
  | sign hX hgains => exact sign_sound hs hstep hX hgains
  | take hX hgains => exact take_sound hs hstep hX hgains
  | iadd ho hq hcells => exact iadd_sound h hs hsafe hstep (.iadd ho hq hcells)
  | assign ho hq hcells => exact assign_sound hs hsafe hstep (.assign ho hq hcells)

theorem exists_read (hs : Sound m x) (hp : m.read a = some p) : ∃ X, x.read a = some X := by
  obtain ⟨o, ho, rfl⟩ := map_eq_some_iff.mp hp
  exact ⟨x.tensor o.v, by rw [Reals.read, hs.real ho, map_some]⟩

theorem exists_compute (hs : Sound m x) {op : Operation} {r : PTensor} (hr : Computes A m r op) :
    ∃ R, x.compute op = some R := by
  cases op with
  | tensor shape y zeros => exact ⟨_, rfl⟩
  | add a b =>
    obtain ⟨p, q, hp, hq, -⟩ := hr
    obtain ⟨X, hX⟩ := exists_read hs hp
    obtain ⟨Y, hY⟩ := exists_read hs hq
    exact ⟨_, by rw [Reals.compute, hX, hY, bind_some, map_some]⟩
  | mul a k =>
    obtain ⟨p, hp, -⟩ := hr
    obtain ⟨X, hX⟩ := exists_read hs hp
    exact ⟨_, by rw [Reals.compute, hX, map_some]⟩
  | div a f =>
    obtain ⟨p, hp, -⟩ := hr
    obtain ⟨X, hX⟩ := exists_read hs hp
    exact ⟨_, by rw [Reals.compute, hX, map_some]⟩
  | matmul a k =>
    obtain ⟨p, hp, -⟩ := hr
    obtain ⟨X, hX⟩ := exists_read hs hp
    exact ⟨_, by rw [Reals.compute, hX, map_some]⟩
  | einsum eq a k =>
    obtain ⟨p, q, hp, hq, -⟩ := hr
    obtain ⟨X, hX⟩ := exists_read hs hp
    exact ⟨_, by rw [Reals.compute, hX, hq, bind_some, map_some]⟩
  | sum a dims keepdim =>
    obtain ⟨p, hp, -⟩ := hr
    obtain ⟨X, hX⟩ := exists_read hs hp
    exact ⟨_, by rw [Reals.compute, hX, map_some]⟩

theorem exists_gains {n n' : Nat} (x : Reals) (hshape : v.shape = R.shape) (hfresh : Fresh n n' v) :
    ∃ y, x.Gains R v y := by
  have hseparate := hfresh.separate
  rw [hshape] at hseparate
  exact ⟨⟨write (indices R.shape) v.address R.x x.cells, x.objs ++ [v]⟩, hshape, written_write hseparate _ _, rfl⟩

theorem exists_result (h : Lawful A slip) (hs : Sound m x) {op : Operation} {e : Option View}
    (hsafe : OperationSafe A slip m op) (hstep : Step A (.result op v e) m m') :
    ∃ R y, x.compute op = some R ∧ x.Gains R v y := by
  cases hstep with
  | result hr hnext hv he hobjs =>
    obtain ⟨R, hR⟩ := exists_compute hs hr
    have hshape := (computes_enclosed h hs hsafe hr hR).shape
    obtain ⟨y, hy⟩ := exists_gains x (hv.shape_eq.trans hshape.symm) hv.fresh
    exact ⟨R, y, hR, hy⟩

theorem exists_sign (hs : Sound m x) {s : Sign} (hstep : Step A (.sign s a v) m m') :
    ∃ X y, x.read a = some X ∧ x.Gains ⟨X.shape, s.apply ∘ X.x⟩ v y := by
  cases hstep with
  | @sign _ _ _ _ _ o ho hnext hv herrs hobjs =>
    have hX : x.read a = some (x.tensor o.v) := by rw [Reals.read, hs.real ho, map_some]
    obtain ⟨y, hy⟩ := exists_gains x (R := ⟨o.v.shape, s.apply ∘ (x.tensor o.v).x⟩) hv.shape_eq hv.fresh
    exact ⟨_, y, hX, hy⟩

theorem exists_step (h : Lawful A slip) (hsafe : Safe A slip i m) (hstep : Step A i m m') (hs : Sound m x) :
    ∃ y, Reals.Step i x y := by
  cases hstep with
  | result hr hnext hv he hobjs =>
    obtain ⟨R, y, hR, hy⟩ := exists_result h hs hsafe (.result hr hnext hv he hobjs)
    exact ⟨y, .result hR hy⟩
  | same ho => exact ⟨_, .same (hs.real ho)⟩
  | negated hsign =>
    obtain ⟨X, y, hX, hy⟩ := exists_sign hs hsign
    obtain ⟨hshape, helements⟩ := mul_number X (-1)
    refine ⟨y, .times (by norm_num) hX (gains_congr hy hshape.symm fun i hi => ?_)⟩
    rw [helements i (hshape ▸ hi), mul_neg_one]
    rfl
  | times hone hneg hmul =>
    obtain ⟨R, y, hR, hy⟩ := exists_result h hs ((hsafe.resolve_left hone).resolve_left hneg) hmul
    obtain ⟨X, hX, rfl⟩ := map_eq_some_iff.mp hR
    exact ⟨y, .times hone hX hy⟩
  | sign ho hnext hv herrs hobjs =>
    obtain ⟨X, y, hX, hy⟩ := exists_sign (A := A) hs (.sign ho hnext hv herrs hobjs)
    exact ⟨y, .sign hX hy⟩
  | @take k a v e _ _ o ho hinside hnext hv he hobjs =>
    have hX : x.read a = some (x.tensor o.v) := by rw [Reals.read, hs.real ho, map_some]
    cases hv.place with
    | inl hview =>
      have hgains : x.Gains ⟨(k.selection o.v.shape).shape, (x.tensor o.v).x ∘ (k.selection o.v.shape).source⟩ v
          ⟨x.cells, x.objs ++ [v]⟩ :=
        ⟨hv.shape_eq, Written.refl fun i hi => by rw [hview i hi]; rfl, rfl⟩
      exact ⟨_, .take hX hgains⟩
    | inr hfresh =>
      obtain ⟨y, hy⟩ := exists_gains x
        (R := ⟨(k.selection o.v.shape).shape, (x.tensor o.v).x ∘ (k.selection o.v.shape).source⟩) hv.shape_eq hfresh
      exact ⟨y, .take hX hy⟩
  | iadd ho hq _ _ hseparate _ _ _ _ => exact ⟨_, .iadd (hs.real ho) (hs.real hq) (written_write hseparate _ _)⟩
  | @already a b sel target _ o q ho hq _ htarget halready =>
    have hshape := (hsafe o q ho hq).1 halready
    obtain ⟨t, ht, hptr, hstrides⟩ := halready
    obtain ⟨-, haddress⟩ := htarget t ht
    refine ⟨_, .assign (hs.real ho) (hs.real hq) (Written.refl fun i hi => ?_)⟩
    have hview : t.address i = q.v.address i := by rw [View.address, View.address, hptr, hstrides]
    have hi' : i ∈ indices q.v.shape := hshape ▸ hi
    rw [alignIndex_self hi', ← hview, haddress i hi]
  | assign ho hq _ _ _ _ hseparate _ _ _ =>
    exact ⟨_, .assign (hs.real ho) (hs.real hq) (written_write hseparate _ _)⟩

/-- A run of the methods of `P`, every step of which meets its conditions. -/
def SafeRun (A : Arithmetic) (slip : ℚ → ℚ) : List Instruction → State → State → Prop :=
  Trace fun i m m' => Safe A slip i m ∧ Step A i m m'

variable {is : List Instruction}

theorem run_sound (h : Lawful A slip) (hrun : SafeRun A slip is m m') (hreal : Trace Reals.Step is x y)
    (hs : Sound m x) : Sound m' y := by
  have hstep : ∀ i s s' t t', Safe A slip i s → Step A i s s' → Reals.Step i t t' → Sound s t → Sound s' t' :=
    fun _ _ _ _ _ hsafe hstep hreal hs => step_sound h hsafe hstep hreal hs
  exact Trace.simulates hstep hrun hreal hs

theorem exists_run (h : Lawful A slip) (hrun : SafeRun A slip is m m') (hs : Sound m x) :
    ∃ y, Trace Reals.Step is x y := by
  induction hrun generalizing x with
  | nil => exact ⟨x, .nil⟩
  | cons hstep _ ih =>
    obtain ⟨y, hy⟩ := exists_step h hstep.1 hstep.2 hs
    obtain ⟨z, hz⟩ := ih (step_sound h hstep.1 hstep.2 hy hs)
    exact ⟨z, .cons hy hz⟩

/-- `lower_to_numpy`, where nothing has overflowed. -/
def lowerToNumpy (A : Arithmetic) (p : PTensor) (i : Index) : ℚ := A.hostSub (p.v i) (errAt p.e i)

theorem lowerToNumpy_le (h : Lawful A slip) {X : RTensor} (hX : Enclosed X p) {i : Index} (hi : i ∈ indices p.shape) :
    lowerToNumpy A p i ≤ X.x i := hostSub_le h (hX.encloses i hi)

end Onnxsim.Rigorous.Computations
