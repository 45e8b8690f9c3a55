import Mathlib.Data.List.Forall2

namespace Onnxsim.Lib.Results

open List

variable {ε α β σ : Type} {f : α → Except ε β} {x : Except ε α} {b : β} {a : α} {s s' : σ} {l : List α} {bs : List β}

theorem bind_eq_ok (h : (x >>= f) = .ok b) : ∃ a, x = .ok a ∧ f a = .ok b := by
  cases x with
  | error e => cases h
  | ok a => exact ⟨a, rfl, h⟩

theorem ok_bind (h : x = .ok a) (f : α → Except ε β) : (x >>= f) = f a := by
  rw [h]
  rfl

theorem stateT_bind_eq_ok {p : StateT σ (Except ε) α} {f : α → StateT σ (Except ε) β} (h : (p >>= f) s = .ok (b, s')) :
    ∃ a s₁, p s = .ok (a, s₁) ∧ f a s₁ = .ok (b, s') := by
  obtain ⟨⟨a, s₁⟩, ha, hb⟩ := bind_eq_ok h
  exact ⟨a, s₁, ha, hb⟩

theorem exists_ok_of_isOk (h : x.isOk = true) : ∃ a, x = .ok a := by
  cases x with
  | error e => cases h
  | ok a => exact ⟨a, rfl⟩

/-- An assertion about the items still to come and the state, kept by every successful step, holds
of the empty rest when the loop succeeds. -/
theorem foldlM_induct {f : σ → α → Except ε σ} {I : List α → σ → Prop}
    (hstep : ∀ a rest s s', I (a :: rest) s → f s a = .ok s' → I rest s') (hs : I l s) (h : l.foldlM f s = .ok s') :
    I [] s' := by
  induction l generalizing s with
  | nil =>
    cases h
    exact hs
  | cons a l ih =>
    rw [foldlM_cons] at h
    obtain ⟨s₁, h₁, h⟩ := bind_eq_ok h
    exact ih (hstep a l s s₁ hs h₁) h

theorem foldlM_ok {f : σ → α → Except ε σ} {P : σ → Prop} (hstep : ∀ a ∈ l, ∀ s, P s → ∃ s', f s a = .ok s' ∧ P s')
    (hs : P s) :
    ∃ s', l.foldlM f s = .ok s' ∧ P s' := by
  induction l generalizing s with
  | nil => exact ⟨s, rfl, hs⟩
  | cons a l ih =>
    obtain ⟨s₁, h₁, hs₁⟩ := hstep a mem_cons_self s hs
    obtain ⟨s₂, h₂, hs₂⟩ := ih (fun b hb => hstep b (mem_cons_of_mem _ hb)) hs₁
    refine ⟨s₂, ?_, hs₂⟩
    rw [foldlM_cons, ok_bind h₁]
    exact h₂

theorem mapM_ok (h : ∀ a ∈ l, ∃ b, f a = .ok b) : ∃ bs, l.mapM f = .ok bs := by
  induction l with
  | nil => exact ⟨[], rfl⟩
  | cons a l ih =>
    obtain ⟨b, hb⟩ := h a mem_cons_self
    obtain ⟨bs, hbs⟩ := ih fun c hc => h c (mem_cons_of_mem _ hc)
    refine ⟨b :: bs, ?_⟩
    rw [mapM_cons, ok_bind hb, ok_bind hbs]
    rfl

theorem mapM_eq_ok {as : List α} (h : as.mapM f = .ok bs) : List.Forall₂ (fun a b => f a = .ok b) as bs := by
  induction as generalizing bs with
  | nil =>
    cases h
    exact .nil
  | cons a as ih =>
    rw [mapM_cons] at h
    obtain ⟨b, hb, h⟩ := bind_eq_ok h
    obtain ⟨bs', hbs, h⟩ := bind_eq_ok h
    cases h
    exact .cons hb (ih hbs)

theorem eq_map_of_mapM {g : α → β} (hg : ∀ a b, f a = .ok b → b = g a) {as : List α} (h : as.mapM f = .ok bs) :
    bs = as.map g := by
  have hall := mapM_eq_ok h
  clear h
  induction hall with
  | nil => rfl
  | cons hb _ ih => rw [ih, map_cons, hg _ _ hb]

theorem forall₂_exists_left {R : α → β → Prop} {m : List β} (h : List.Forall₂ R l m) (hb : b ∈ m) : ∃ a ∈ l, R a b := by
  induction h with
  | nil => cases hb
  | cons hab _ ih =>
    rcases mem_cons.mp hb with rfl | hb
    · exact ⟨_, mem_cons_self, hab⟩
    · obtain ⟨a, ha, hR⟩ := ih hb
      exact ⟨a, mem_cons_of_mem _ ha, hR⟩

theorem ok_of_mapM {as : List α} (h : as.mapM f = .ok bs) (ha : a ∈ as) : ∃ b, f a = .ok b :=
  (forall₂_exists_left (mapM_eq_ok h).flip ha).imp fun _ => And.right

theorem ok_of_forM {f : α → Except ε PUnit} {as : List α} (h : as.forM f = .ok ()) (ha : a ∈ as) : f a = .ok () := by
  induction as with
  | nil => cases ha
  | cons b as ih =>
    obtain ⟨u, hb, h⟩ := bind_eq_ok (f := fun _ => as.forM f) h
    cases mem_cons.mp ha with
    | inl heq => rw [heq, hb]
    | inr ha => exact ih h ha

theorem forall₂_of_mapM {f : α → Option β} {as : List α} (h : as.mapM f = some bs) :
    List.Forall₂ (fun a b => f a = some b) as bs := by
  induction as generalizing bs with
  | nil =>
    cases h
    exact .nil
  | cons a as ih =>
    rw [mapM_cons] at h
    obtain ⟨b, hb, h⟩ := Option.bind_eq_some_iff.mp h
    obtain ⟨bs', hbs, h⟩ := Option.bind_eq_some_iff.mp h
    cases h
    exact .cons hb (ih hbs)

theorem exists_of_mapM_eq_some {f : α → Option β} {as : List α} (h : as.mapM f = some bs) (ha : a ∈ as) :
    ∃ b ∈ bs, f a = some b :=
  forall₂_exists_left (forall₂_of_mapM h).flip ha

theorem filterAuxM_eq_ok {ε α : Type} {f : α → Except ε Bool} {as acc bs : List α}
    (h : as.filterAuxM f acc = .ok bs) :
    ∃ p : α → Bool, (∀ a ∈ as, f a = .ok (p a)) ∧ bs = (as.filter p).reverse ++ acc := by
  classical
  induction as generalizing acc with
  | nil =>
    cases h
    exact ⟨fun _ => true, by simp, rfl⟩
  | cons a as ih =>
    obtain ⟨b, hb, h⟩ := bind_eq_ok h
    obtain ⟨p, hp, rfl⟩ := ih h
    have hsame : ∀ x ∈ a :: as, f x = .ok (if x = a then b else p x) := by
      intro x hx
      by_cases hxa : x = a
      · rw [if_pos hxa, hxa, hb]
      · rw [if_neg hxa]
        exact hp x ((mem_cons.mp hx).resolve_left hxa)
    refine ⟨fun x => if x = a then b else p x, hsame, ?_⟩
    have hfilter : as.filter p = as.filter fun x => if x = a then b else p x := by
      apply filter_congr
      intro x hx
      have htwice := (hp x hx).symm.trans (hsame x (mem_cons_of_mem _ hx))
      exact Except.ok.inj htwice
    rw [hfilter, filter_cons, if_pos rfl]
    cases b with
    | false => rfl
    | true => simp

theorem filterM_eq_ok {ε α : Type} {f : α → Except ε Bool} {as bs : List α} (h : as.filterM f = .ok bs) :
    ∃ p : α → Bool, (∀ a ∈ as, f a = .ok (p a)) ∧ bs = as.filter p := by
  rw [List.filterM] at h
  obtain ⟨rev, hrev, h⟩ := bind_eq_ok h
  cases h
  obtain ⟨p, hp, rfl⟩ := filterAuxM_eq_ok hrev
  exact ⟨p, hp, by simp⟩

end Onnxsim.Lib.Results
