import Mathlib.Data.List.Basic

namespace Onnxsim.Lib.Readers

open List

variable {τ ε α β : Type}

/-- What a sequential reader still has in front of it, and how far it has come. -/
structure Cursor (τ : Type) where
  pos : Nat
  rest : List τ
  deriving DecidableEq, Repr

abbrev Reader (τ ε α : Type) := StateT (Cursor τ) (Except ε) α

/-- `p` consumes exactly `xs` and returns `a`, whenever what follows satisfies `K`. -/
def Reads (p : Reader τ ε α) (xs : List τ) (a : α) (K : List τ → Prop) : Prop :=
  ∀ pos ys, K ys → p ⟨pos, xs ++ ys⟩ = .ok (a, ⟨pos + xs.length, ys⟩)

def Any : List τ → Prop := fun _ => True

theorem run_bind (p : Reader τ ε α) (f : α → Reader τ ε β) (c : Cursor τ) :
    (p >>= f) c = match p c with
      | .error e => .error e
      | .ok (a, c') => f a c' := by
  simp only [bind, StateT.bind, Except.bind]
  cases p c <;> rfl

variable {p : Reader τ ε α} {f : α → Reader τ ε β} {a : α} {xs ys : List τ} {b : β} {Q : α → Prop} {D C : Prop}
    {R : List τ → α → Prop} {e : ε} {γ : Type} {val : β → γ → α} {enc : γ → List τ}

theorem run_bind_ok {c c' : Cursor τ} (h : p c = .ok (a, c')) : (p >>= f) c = f a c' := by
  rw [run_bind, h]

theorem reads_pure (a : α) (K : List τ → Prop) : Reads (pure a : Reader τ ε α) [] a K := by
  intro pos ys _
  rfl

theorem Reads.bind {K L : List τ → Prop} (hp : Reads p xs a K) (hf : Reads (f a) ys b L)
    (hK : ∀ zs, L zs → K (ys ++ zs)) : Reads (p >>= f) (xs ++ ys) b L := by
  intro pos zs hz
  rw [append_assoc, run_bind_ok (hp pos (ys ++ zs) (hK zs hz)), hf _ zs hz]
  simp only [length_append, Nat.add_assoc]

/-- Whatever `p` returns, on whatever input, satisfies `Q`. -/
def Yields (p : Reader τ ε α) (Q : α → Prop) : Prop := ∀ c a c', p c = .ok (a, c') → Q a

theorem yields_pure (h : Q a) : Yields (pure a : Reader τ ε α) Q := by
  intro c b c' hb
  have hok : (Except.ok (a, c) : Except ε (α × Cursor τ)) = .ok (b, c') := hb
  cases hok
  exact h

theorem yields_error (h : ∀ c, ∃ e, p c = .error e) : Yields p Q := by
  intro c a c' ha
  obtain ⟨e, he⟩ := h c
  rw [he] at ha
  cases ha

theorem Yields.bind {P : α → Prop} {Q : β → Prop} (hp : Yields p P) (hf : ∀ a, P a → Yields (f a) Q) :
    Yields (p >>= f) Q := by
  intro c b c' hb
  rw [run_bind] at hb
  cases hc : p c with
  | error e => simp [hc] at hb
  | ok r =>
    obtain ⟨a, c₁⟩ := r
    simp only [hc] at hb
    exact hf a (hp c a c₁ hc) c₁ b c' hb

theorem yields_bind {Q : β → Prop} (hf : ∀ a, Yields (f a) Q) : Yields (p >>= f) Q :=
  Yields.bind (P := fun _ => True) (fun _ _ _ _ => trivial) fun a _ => hf a

/-- `p` consumes exactly `xs` and returns `a` if `C` holds, and fails on `xs` if not. -/
def ReadsIf (p : Reader τ ε α) (xs : List τ) (a : α) (C : Prop) : Prop :=
  ∀ pos ys, (C → p ⟨pos, xs ++ ys⟩ = .ok (a, ⟨pos + xs.length, ys⟩)) ∧ (¬C → ∃ e, p ⟨pos, xs ++ ys⟩ = .error e)

theorem readsIf_pure (a : α) : ReadsIf (pure a : Reader τ ε α) [] a True :=
  fun _ _ => ⟨fun _ => rfl, fun h => absurd trivial h⟩

theorem ReadsIf.iff (h : ReadsIf p xs a C) (hCD : C ↔ D) : ReadsIf p xs a D :=
  fun pos ys => ⟨fun hd => (h pos ys).1 (hCD.mpr hd), fun hd => (h pos ys).2 (mt hCD.mp hd)⟩

theorem ReadsIf.bind (hp : ReadsIf p xs a C) (hf : C → ReadsIf (f a) ys b D) : ReadsIf (p >>= f) (xs ++ ys) b (C ∧ D) := by
  intro pos zs
  rw [append_assoc]
  by_cases hc : C
  · rw [run_bind_ok ((hp pos (ys ++ zs)).1 hc)]
    obtain ⟨hok, herr⟩ := hf hc (pos + xs.length) zs
    constructor
    · rintro ⟨-, hd⟩
      rw [hok hd, length_append, Nat.add_assoc]
    · intro hd
      exact herr fun h => hd ⟨hc, h⟩
  · obtain ⟨e, he⟩ := (hp pos (ys ++ zs)).2 hc
    constructor
    · rintro ⟨h, -⟩
      exact absurd h hc
    · intro _
      exact ⟨e, by rw [run_bind, he]⟩

theorem ReadsIf.seq (hp : ReadsIf p xs a True) (hf : ReadsIf (f a) ys b D) : ReadsIf (p >>= f) (xs ++ ys) b D :=
  (hp.bind fun _ => hf).iff (true_and D).to_iff

theorem ReadsIf.seq_nil (hp : ReadsIf p [] a True) (hf : ReadsIf (f a) ys b D) : ReadsIf (p >>= f) ys b D :=
  hp.seq hf

/-- What `p` consumes and what it returns are related by `R`. -/
def Parses (p : Reader τ ε α) (R : List τ → α → Prop) : Prop :=
  ∀ c a c', p c = .ok (a, c') → ∃ xs, c.rest = xs ++ c'.rest ∧ R xs a

theorem parses_pure (h : R [] a) : Parses (pure a : Reader τ ε α) R := by
  intro c b c' hb
  have hok : (Except.ok (a, c) : Except ε (α × Cursor τ)) = .ok (b, c') := hb
  cases hok
  exact ⟨[], rfl, h⟩

theorem Parses.mono {S : List τ → α → Prop} (h : Parses p R) (hRS : ∀ xs a, R xs a → S xs a) : Parses p S := by
  intro c a c' ha
  obtain ⟨xs, hxs, hR⟩ := h c a c' ha
  exact ⟨xs, hxs, hRS xs a hR⟩

theorem Parses.bind {S : List τ → β → Prop} (hp : Parses p R)
    (hf : ∀ xs a, R xs a → Parses (f a) fun ys b => S (xs ++ ys) b) : Parses (p >>= f) S := by
  intro c b c' hb
  rw [run_bind] at hb
  cases hc : p c with
  | error e => simp [hc] at hb
  | ok r =>
    obtain ⟨a, c₁⟩ := r
    simp only [hc] at hb
    obtain ⟨xs, hxs, hR⟩ := hp c a c₁ hc
    obtain ⟨ys, hys, hS⟩ := hf xs a hR c₁ b c' hb
    exact ⟨xs ++ ys, by rw [hxs, hys, append_assoc], hS⟩

/-- `p` never fails with `e`. -/
def Avoids (p : Reader τ ε α) (e : ε) : Prop := ∀ c, p c ≠ .error e

theorem avoids_pure (a : α) (e : ε) : Avoids (pure a : Reader τ ε α) e := by
  intro c h
  cases h

theorem Avoids.bind (hp : Avoids p e) (hf : ∀ a, Avoids (f a) e) : Avoids (p >>= f) e := by
  intro c h
  rw [run_bind] at h
  cases hc : p c with
  | error e' =>
    rw [hc] at h
    cases h
    exact hp c hc
  | ok r =>
    obtain ⟨a, c₁⟩ := r
    rw [hc] at h
    exact hf a c₁ h

/-- Read one item into each of the objects that are there. -/
def readEach (p : β → Reader τ ε α) : List β → Reader τ ε (List α)
  | [] => pure []
  | b :: bs => do
    let a ← p b
    let as ← readEach p bs
    pure (a :: as)

theorem readsIf_readEach {p : β → Reader τ ε α} {C : γ → Prop} {bs : List β} {cs : List γ}
    (hlen : bs.length = cs.length) (h : ∀ b, ∀ c ∈ cs, ReadsIf (p b) (enc c) (val b c) (C c)) :
    ReadsIf (readEach p bs) (cs.flatMap enc) (List.zipWith val bs cs) (∀ c ∈ cs, C c) := by
  induction bs generalizing cs with
  | nil =>
    cases eq_nil_of_length_eq_zero hlen.symm
    exact (readsIf_pure []).iff (by simp)
  | cons b bs ih =>
    cases cs with
    | nil => cases hlen
    | cons c cs =>
      have hrest := ih (Nat.succ.inj hlen) fun b' c' hc' => h b' c' (mem_cons_of_mem _ hc')
      rw [flatMap_cons, zipWith_cons_cons]
      refine ((h b c mem_cons_self).bind fun _ => ?_).iff forall_mem_cons.symm
      rw [← append_nil (cs.flatMap enc)]
      refine (ReadsIf.bind hrest fun _ => ?_).iff (and_true _).to_iff
      exact readsIf_pure _

theorem parses_readEach {p : β → Reader τ ε α} {P : γ → Prop}
    (h : ∀ b, Parses (p b) fun xs a => ∃ c, xs = enc c ∧ a = val b c ∧ P c) (bs : List β) :
    Parses (readEach p bs) fun xs as =>
      ∃ cs : List γ, cs.length = bs.length ∧ xs = cs.flatMap enc ∧ as = List.zipWith val bs cs ∧ ∀ c ∈ cs, P c := by
  induction bs with
  | nil => exact parses_pure ⟨[], rfl, rfl, rfl, by simp⟩
  | cons b bs ih =>
    refine (h b).bind ?_
    rintro xs a ⟨c, rfl, rfl, hc⟩
    refine ih.bind ?_
    rintro ys as ⟨cs, hlen, rfl, rfl, hcs⟩
    refine parses_pure ⟨c :: cs, by rw [length_cons, hlen, length_cons], by simp, rfl, ?_⟩
    exact forall_mem_cons.mpr ⟨hc, hcs⟩

theorem avoids_readEach {p : β → Reader τ ε α} (h : ∀ b, Avoids (p b) e) (bs : List β) :
    Avoids (readEach p bs) e := by
  induction bs with
  | nil => exact avoids_pure [] e
  | cons b bs ih => exact (h b).bind fun a => ih.bind fun as => avoids_pure _ e

/-- Read a list of items one after the other, `n` times. -/
def readMany (p : Reader τ ε α) : Nat → Reader τ ε (List α)
  | 0 => pure []
  | n + 1 => do
    let a ← p
    let as ← readMany p n
    pure (a :: as)

theorem readsIf_readMany {enc : β → List τ} {val : β → α} {C : β → Prop} (bs : List β)
    (h : ∀ b ∈ bs, ReadsIf p (enc b) (val b) (C b)) :
    ReadsIf (readMany p bs.length) (bs.flatMap enc) (bs.map val) (∀ b ∈ bs, C b) := by
  induction bs with
  | nil => exact (readsIf_pure []).iff (by simp)
  | cons b bs ih =>
    have hrest := ih fun b' hb' => h b' (mem_cons_of_mem _ hb')
    rw [flatMap_cons, length_cons, map_cons]
    refine ((h b mem_cons_self).bind fun _ => ?_).iff forall_mem_cons.symm
    rw [← append_nil (bs.flatMap enc)]
    refine (hrest.bind fun _ => ?_).iff (and_true _).to_iff
    exact readsIf_pure _

theorem reads_readMany (p : Reader τ ε α) (enc : β → List τ) (val : β → α)
    (bs : List β) (h : ∀ b ∈ bs, Reads p (enc b) (val b) Any) :
    Reads (readMany p bs.length) (bs.flatMap enc) (bs.map val) Any := by
  induction bs with
  | nil => exact reads_pure [] Any
  | cons b bs ih =>
    have hb := h b mem_cons_self
    have hbs := ih fun b' hb' => h b' (mem_cons_of_mem _ hb')
    rw [flatMap_cons, length_cons, map_cons]
    refine hb.bind ?_ fun _ _ => trivial
    rw [← append_nil (bs.flatMap enc)]
    exact hbs.bind (reads_pure _ Any) fun _ _ => trivial

end Onnxsim.Lib.Readers
