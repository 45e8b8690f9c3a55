import Mathlib.Data.List.Nodup

namespace Onnxsim.Lib.Dataflow

open List

variable {N X V : Type} [DecidableEq X]

/-- What the nodes of a dataflow graph do: the names they read, the slots they write (`none` for a
result nobody named) and the results they compute, which depend only on what is read. -/
structure Behaviour (N X V : Type) where
  reads : N → List X
  writes : N → List (Option X)
  run : N → (X → Option V) → List V
  run_congr : ∀ n e e', (∀ x ∈ reads n, e x = e' x) → run n e = run n e'

def named (ws : List (Option X)) : List X := ws.filterMap id

def bindOutputs : List (Option X) → List V → (X → Option V) → X → Option V
  | [], _, e => e
  | none :: ws, vs, e => bindOutputs ws vs.tail e
  | some x :: ws, vs, e => bindOutputs ws vs.tail (Function.update e x vs.head?)

variable {x : X} {ws : List (Option X)} {defs defs' : List X} {n m : N}

theorem bindOutputs_of_notMem (hx : x ∉ named ws) (vs : List V) (e : X → Option V) : bindOutputs ws vs e x = e x := by
  induction ws generalizing vs e with
  | nil => rfl
  | cons w ws ih =>
    cases w with
    | none => exact ih (by simpa [named] using hx) vs.tail e
    | some y =>
      have hne : x ≠ y ∧ x ∉ named ws := by simpa [named] using hx
      rw [bindOutputs, ih hne.2, Function.update_of_ne hne.1]

theorem bindOutputs_of_mem (hx : x ∈ named ws) (vs : List V) (e : X → Option V) :
    ∃ j : Nat, ws[j]? = some (some x) ∧ bindOutputs ws vs e x = vs[j]? := by
  induction ws generalizing vs e with
  | nil => cases hx
  | cons w ws ih =>
    have hstep : ∀ e', x ∈ named ws →
        ∃ j : Nat, (w :: ws)[j]? = some (some x) ∧ bindOutputs ws vs.tail e' x = vs[j]? := by
      intro e' hmem
      obtain ⟨j, hj, hv⟩ := ih hmem vs.tail e'
      refine ⟨j + 1, hj, ?_⟩
      rw [hv, getElem?_tail]
    cases w with
    | none => exact hstep e (by simpa [named] using hx)
    | some y =>
      by_cases hmem : x ∈ named ws
      · exact hstep _ hmem
      · have hxy : x = y := by
          have : x = y ∨ x ∈ named ws := by simpa [named] using hx
          exact this.resolve_right hmem
        refine ⟨0, by simp [hxy], ?_⟩
        rw [bindOutputs, bindOutputs_of_notMem hmem, hxy, Function.update_self, head?_eq_getElem?]

omit [DecidableEq X] in
theorem slot_unique (hn : (named ws).Nodup) {i j : Nat} (hi : ws[i]? = some (some x)) (hj : ws[j]? = some (some x)) :
    i = j := by
  induction ws generalizing i j with
  | nil => simp at hi
  | cons w ws ih =>
    have hmem : ∀ {k}, ws[k]? = some (some x) → x ∈ named ws := fun {k} hk =>
      mem_filterMap.mpr ⟨some x, mem_of_getElem? hk, rfl⟩
    cases w with
    | none =>
      have hn' : (named ws).Nodup := by simpa [named] using hn
      cases i with
      | zero => simp at hi
      | succ i =>
        cases j with
        | zero => simp at hj
        | succ j => exact congrArg (· + 1) (ih hn' hi hj)
    | some y =>
      obtain ⟨hy, hn'⟩ : y ∉ named ws ∧ (named ws).Nodup := by simpa [named] using hn
      cases i with
      | zero =>
        have hxy : y = x := by simpa using hi
        cases j with
        | zero => rfl
        | succ j => exact absurd (hmem hj) (hxy ▸ hy)
      | succ i =>
        cases j with
        | zero =>
          have hxy : y = x := by simpa using hj
          exact absurd (hmem hi) (hxy ▸ hy)
        | succ j => exact congrArg (· + 1) (ih hn' hi hj)

section

variable (b : Behaviour N X V)

def written (n : N) : List X := named (b.writes n)

def step (e : X → Option V) (n : N) : X → Option V := bindOutputs (b.writes n) (b.run n e) e

def eval (ns : List N) (e : X → Option V) : X → Option V := ns.foldl (step b) e

/-- Every node reads only what stands before it. -/
def Scoped : List X → List N → Prop
  | _, [] => True
  | defs, n :: ns => (∀ x ∈ b.reads n, x ∈ defs) ∧ Scoped (defs ++ written b n) ns

def SingleAssignment (defs : List X) (ns : List N) : Prop := (defs ++ ns.flatMap (written b)).Nodup

/-- The equation a node contributes to an environment. -/
def Solves (n : N) (e : X → Option V) : Prop :=
  ∀ (j : Nat) (x : X), (b.writes n)[j]? = some (some x) → e x = (b.run n e)[j]?

variable {ns : List N}

omit [DecidableEq X] in
theorem Scoped.mono (h : Scoped b defs ns) (hsub : ∀ x ∈ defs, x ∈ defs') : Scoped b defs' ns := by
  induction ns generalizing defs defs' with
  | nil => trivial
  | cons n ns ih =>
    refine ⟨fun x hx => hsub x (h.1 x hx), ih h.2 fun x hx => ?_⟩
    exact mem_append.mpr ((mem_append.mp hx).imp_left (hsub x))

omit [DecidableEq X] in
theorem Scoped.append {ms : List N} (hm : Scoped b defs ms) (hn : Scoped b (defs ++ ms.flatMap (written b)) ns) :
    Scoped b defs (ms ++ ns) := by
  induction ms generalizing defs with
  | nil =>
    rwa [flatMap_nil, append_nil] at hn
  | cons m ms ih =>
    rw [flatMap_cons, ← append_assoc] at hn
    exact ⟨hm.1, ih hm.2 hn⟩

omit [DecidableEq X] in
theorem Scoped.mem_of_reads (h : Scoped b defs ns) (hn : n ∈ ns) (hx : x ∈ b.reads n) :
    x ∈ defs ++ ns.flatMap (written b) := by
  induction ns generalizing defs with
  | nil => cases hn
  | cons m ns ih =>
    rcases mem_cons.mp hn with rfl | hn
    · exact mem_append_left _ (h.1 x hx)
    · rw [flatMap_cons, ← append_assoc]
      exact ih h.2 hn

theorem eval_of_notMem (hx : x ∉ ns.flatMap (written b)) (e : X → Option V) : eval b ns e x = e x := by
  induction ns generalizing e with
  | nil => rfl
  | cons n ns ih =>
    rw [flatMap_cons, mem_append, not_or] at hx
    rw [eval, foldl_cons, ← eval, ih hx.2, step, bindOutputs_of_notMem hx.1]

theorem eval_eq_of_solves {e s : X → Option V} (hscope : Scoped b defs ns) (hdefs : ∀ x ∈ defs, e x = s x)
    (hs : ∀ n ∈ ns, Solves b n s) :
    ∀ x ∈ defs ++ ns.flatMap (written b), eval b ns e x = s x := by
  induction ns generalizing defs e with
  | nil => simpa [eval] using hdefs
  | cons n ns ih =>
    intro x hx
    have hrun : b.run n e = b.run n s := b.run_congr n e s fun y hy => hdefs y (hscope.1 y hy)
    have hstep : ∀ y ∈ defs ++ written b n, step b e n y = s y := by
      intro y hy
      by_cases hmem : y ∈ written b n
      · obtain ⟨j, hj, hv⟩ := bindOutputs_of_mem hmem (b.run n e) e
        rw [step, hv, hrun, hs n mem_cons_self j y hj]
      · have hd : y ∈ defs := (mem_append.mp hy).resolve_right hmem
        rw [step, bindOutputs_of_notMem hmem, hdefs y hd]
    refine ih hscope.2 hstep (fun m hm => hs m (mem_cons_of_mem _ hm)) x ?_
    rwa [flatMap_cons, ← append_assoc] at hx

theorem eval_solves (hscope : Scoped b defs ns) (hsingle : SingleAssignment b defs ns) (e : X → Option V) :
    ∀ n ∈ ns, Solves b n (eval b ns e) := by
  induction ns generalizing defs e with
  | nil => simp
  | cons n ns ih =>
    rw [SingleAssignment, flatMap_cons, ← append_assoc] at hsingle
    intro m hm
    rcases mem_cons.mp hm with rfl | hm
    · obtain ⟨hfront, -, hdisj⟩ := nodup_append.mp hsingle
      obtain ⟨-, hwritten, hfresh⟩ := nodup_append.mp hfront
      have hkeep : ∀ x ∈ defs ++ written b m, eval b (m :: ns) e x = step b e m x := by
        intro x hx
        have hnot : x ∉ ns.flatMap (written b) := fun hmem => hdisj x hx x hmem rfl
        exact eval_of_notMem b hnot (step b e m)
      have hreads : ∀ x ∈ b.reads m, eval b (m :: ns) e x = e x := by
        intro x hx
        have hd := hscope.1 x hx
        have hnot : x ∉ written b m := fun hmem => hfresh x hd x hmem rfl
        rw [hkeep x (mem_append_left _ hd), step, bindOutputs_of_notMem hnot]
      intro j x hj
      have hmem : x ∈ written b m :=
        mem_filterMap.mpr ⟨some x, mem_of_getElem? hj, rfl⟩
      obtain ⟨i, hi, hv⟩ := bindOutputs_of_mem hmem (b.run m e) e
      rw [hkeep x (mem_append_right _ hmem), step, hv, slot_unique hwritten hi hj,
        b.run_congr m _ e hreads]
    · exact ih hscope.2 hsingle (step b e n) m hm

end

section

variable (b : Behaviour N X V)

/-- An environment with the results of nodes added that compute on what is there. -/
def extend (intros : List N) (e : X → Option V) (x : X) : Option V :=
  match intros.find? fun m => b.writes m = [some x] with
  | some m => (b.run m e)[0]?
  | none => e x

/-- Nodes with one new result each, none of which another of them reads. -/
structure Introduces (names : List X) (intros : List N) : Prop where
  writes : ∀ m ∈ intros, ∃ x, b.writes m = [some x] ∧ x ∉ names
  reads : ∀ m ∈ intros, ∀ x ∈ b.reads m, x ∈ names
  distinct : intros.Pairwise fun m m' => b.writes m ≠ b.writes m'

variable {b} {names : List X} {intros : List N} {e : X → Option V} (h : Introduces b names intros)

include h

theorem extend_old (hx : x ∈ names) : extend b intros e x = e x := by
  have hnone : (intros.find? fun m => b.writes m = [some x]) = none := by
    apply find?_eq_none.mpr
    intro m hm
    obtain ⟨y, hy, hnew⟩ := h.writes m hm
    rw [decide_eq_true_eq, hy]
    intro he
    cases he
    exact hnew hx
  rw [extend, hnone]

theorem find?_intro (hm : m ∈ intros) (hx : b.writes m = [some x]) :
    (intros.find? fun m => b.writes m = [some x]) = some m := by
  have hdistinct := h.distinct
  clear h
  induction intros with
  | nil => cases hm
  | cons n intros ih =>
    obtain ⟨hn, hrest⟩ := pairwise_cons.mp hdistinct
    rcases mem_cons.mp hm with rfl | hm
    · rw [find?_cons_of_pos (by simpa using hx)]
    · have hne : ¬ b.writes n = [some x] := fun he => hn m hm (he.trans hx.symm)
      rw [find?_cons_of_neg (by simpa using hne)]
      exact ih hm hrest

theorem extend_intro (hm : m ∈ intros) (hx : b.writes m = [some x]) : extend b intros e x = (b.run m e)[0]? := by
  rw [extend, find?_intro h hm hx]

theorem run_extend (hm : ∀ x ∈ b.reads m, x ∈ names) : b.run m (extend b intros e) = b.run m e :=
  b.run_congr m _ _ fun x hx => extend_old h (hm x hx)

theorem solves_intro (hm : m ∈ intros) : Solves b m (extend b intros e) := by
  obtain ⟨x, hx, -⟩ := h.writes m hm
  intro j y hy
  rw [run_extend h (h.reads m hm)]
  cases j with
  | zero =>
    rw [hx] at hy
    cases hy
    exact extend_intro h hm hx
  | succ j =>
    rw [hx] at hy
    cases hy

theorem solves_kept (hreads : ∀ x ∈ b.reads m, x ∈ names) (hwrites : ∀ x ∈ written b m, x ∈ names) (hm : Solves b m e) :
    Solves b m (extend b intros e) := by
  intro j x hx
  have hmem : x ∈ written b m := mem_filterMap.mpr ⟨some x, mem_of_getElem? hx, rfl⟩
  rw [run_extend h hreads, extend_old h (hwrites x hmem), hm j x hx]

/-- Evaluating the nodes with the introduced ones among them finds the extended environment. -/
theorem eval_extend {ms : List N} {e₀ : X → Option V} (hscope : Scoped b defs ms)
    (hdefs : ∀ x ∈ defs, x ∈ names ∧ e₀ x = e x) (hms : ∀ m ∈ ms, m ∈ intros ∨ Solves b m (extend b intros e)) :
    ∀ x ∈ defs ++ ms.flatMap (written b), eval b ms e₀ x = extend b intros e x := by
  apply eval_eq_of_solves b hscope
  · intro x hx
    obtain ⟨hname, heq⟩ := hdefs x hx
    rw [extend_old h hname, heq]
  · intro m hm
    exact (hms m hm).elim (solves_intro h) id

end

variable (b : Behaviour N X V)

/-- The nodes `pre` prepare operands for `last`, which stands where `n` stood. -/
structure Replaces (n : N) (pre : List N) (last : N) : Prop where
  reads_pre : ∀ i ∈ pre, ∀ x ∈ b.reads i, x ∈ b.reads n
  reads_last : ∀ x ∈ b.reads last, x ∈ b.reads n ∨ x ∈ pre.flatMap (written b)
  writes : b.writes last = b.writes n

/-- A graph, one in which every node may be replaced, and all the nodes that prepare operands. -/
inductive Expands : List N → List N → List N → Prop where
  | nil : Expands [] [] []
  | cons {n last : N} {pre ns ms ks : List N} : Replaces b n pre last → Expands ns ms ks →
      Expands (n :: ns) (pre ++ last :: ms) (pre ++ ks)

variable {b} {names : List X} {ns ms ks : List N}

omit [DecidableEq X] in
theorem Replaces.refl (n : N) : Replaces b n [] n := ⟨by simp, fun _ hx => .inl hx, rfl⟩

omit [DecidableEq X] in
theorem Expands.keep (h : Expands b ns ms ks) : Expands b (n :: ns) (n :: ms) ks := .cons (.refl n) h

omit [DecidableEq X] in
theorem scoped_of_reads (h : ∀ n ∈ ns, ∀ x ∈ b.reads n, x ∈ defs) : Scoped b defs ns := by
  induction ns generalizing defs with
  | nil => trivial
  | cons n ns ih =>
    refine ⟨h n mem_cons_self, ih fun m hm x hx => ?_⟩
    exact mem_append_left _ (h m (mem_cons_of_mem _ hm) x hx)

omit [DecidableEq X] in
theorem written_congr (h : b.writes n = b.writes m) : written b n = written b m := congrArg named h

omit [DecidableEq X] in
theorem Expands.scoped (h : Expands b ns ms ks) (hscope : Scoped b defs ns) (hsub : ∀ x ∈ defs, x ∈ defs') :
    Scoped b defs' ms := by
  induction h generalizing defs defs' with
  | nil => trivial
  | @cons n last pre ns ms ks hrep _ ih =>
    have hreads : ∀ x ∈ b.reads n, x ∈ defs' := fun x hx => hsub x (hscope.1 x hx)
    apply Scoped.append
    · exact scoped_of_reads fun i hi x hx => hreads x (hrep.reads_pre i hi x hx)
    · refine ⟨?_, ih hscope.2 ?_⟩
      · intro x hx
        rw [mem_append]
        exact (hrep.reads_last x hx).imp_left (hreads x)
      · intro x hx
        rw [written_congr hrep.writes]
        rcases mem_append.mp hx with hx | hx
        · exact mem_append_left _ (mem_append_left _ (hsub x hx))
        · exact mem_append_right _ hx

omit [DecidableEq X] in
theorem Expands.written_perm (h : Expands b ns ms ks) :
    (ms.flatMap (written b)).Perm (ks.flatMap (written b) ++ ns.flatMap (written b)) := by
  induction h with
  | nil => exact .refl _
  | @cons n last pre ns ms ks hrep _ ih =>
    simp only [flatMap_append, flatMap_cons, written_congr hrep.writes, append_assoc]
    apply List.Perm.append_left
    exact (ih.append_left (written b n)).trans (perm_append_comm_assoc _ _ _)

omit [DecidableEq X] in
theorem Introduces.notMem (h : Introduces b names ks) (hx : x ∈ ks.flatMap (written b)) : x ∉ names := by
  obtain ⟨k, hk, hmem⟩ := mem_flatMap.mp hx
  obtain ⟨y, hy, hnew⟩ := h.writes k hk
  rw [written, hy] at hmem
  have hxy : x = y := by simpa [named] using hmem
  rwa [hxy]

omit [DecidableEq X] in
theorem Introduces.nodup (h : Introduces b names ks) : (ks.flatMap (written b)).Nodup := by
  induction ks with
  | nil => exact nodup_nil
  | cons k ks ih =>
    obtain ⟨hhead, hrest⟩ := pairwise_cons.mp h.distinct
    obtain ⟨x, hx, -⟩ := h.writes k mem_cons_self
    have hwritten : written b k = [x] := by
      rw [written, hx]
      rfl
    rw [flatMap_cons, hwritten, singleton_append, nodup_cons]
    constructor
    · intro hmem
      obtain ⟨j, hj, hxj⟩ := mem_flatMap.mp hmem
      obtain ⟨y, hy, -⟩ := h.writes j (mem_cons_of_mem _ hj)
      rw [written, hy] at hxj
      have hxy : x = y := by simpa [named] using hxj
      exact hhead j hj (by rw [hx, hy, hxy])
    · exact ih ⟨fun m hm => h.writes m (mem_cons_of_mem _ hm),
        fun m hm => h.reads m (mem_cons_of_mem _ hm), hrest⟩

omit [DecidableEq X] in
theorem Expands.single (h : Expands b ns ms ks) (hnew : Introduces b names ks)
    (hnames : ∀ x ∈ defs ++ ns.flatMap (written b), x ∈ names) (hsingle : SingleAssignment b defs ns) :
    SingleAssignment b defs ms := by
  have hperm := h.written_perm.append_left defs
  rw [SingleAssignment, hperm.nodup_iff]
  obtain ⟨hdefs, hwritten, hdisj⟩ := nodup_append.mp hsingle
  apply nodup_append.mpr
  refine ⟨hdefs, nodup_append.mpr ⟨hnew.nodup, hwritten, ?_⟩, ?_⟩
  · intro x hx y hy hxy
    exact hnew.notMem hx (hxy ▸ hnames y (mem_append_right _ hy))
  · intro x hx y hy hxy
    rcases mem_append.mp hy with hy | hy
    · exact hnew.notMem hy (hxy ▸ hnames x (mem_append_left _ hx))
    · exact hdisj x hx y hy hxy

theorem Expands.eval_eq (h : Expands b ns ms ks) (hnew : Introduces b names ks) (hscope : Scoped b defs ns)
    (hsingle : SingleAssignment b defs ns) (hnames : ∀ x ∈ defs ++ ns.flatMap (written b), x ∈ names)
    (e : X → Option V) (hms : ∀ m ∈ ms, m ∈ ks ∨ Solves b m (extend b ks (eval b ns e)))
    (hx : x ∈ names ∨ x ∈ ks.flatMap (written b)) : eval b ms e x = extend b ks (eval b ns e) x := by
  have hdefs : ∀ x ∈ defs, x ∈ names ∧ e x = eval b ns e x := by
    intro x hx
    refine ⟨hnames x (mem_append_left _ hx), (eval_of_notMem b ?_ e).symm⟩
    intro hmem
    exact (nodup_append.mp hsingle).2.2 x hx x hmem rfl
  have heval := eval_extend hnew (h.scoped hscope fun _ hx => hx) hdefs hms
  by_cases hdef : x ∈ defs ++ ms.flatMap (written b)
  · exact heval x hdef
  · rw [mem_append, not_or, h.written_perm.mem_iff, mem_append, not_or] at hdef
    obtain ⟨-, hint, hold⟩ := hdef
    have hnot : x ∉ ms.flatMap (written b) := by
      rw [h.written_perm.mem_iff, mem_append, not_or]
      exact ⟨hint, hold⟩
    rw [extend_old hnew (hx.resolve_right hint)]
    exact (eval_of_notMem b hnot e).trans (eval_of_notMem b hold e).symm

end Onnxsim.Lib.Dataflow
