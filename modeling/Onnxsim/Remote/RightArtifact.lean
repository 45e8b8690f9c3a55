import Mathlib.Logic.Equiv.List
import Onnxsim.Remote.Consistency

namespace Onnxsim.Remote.RightArtifact

open Option Lib.Bytes Lib.Dicts Lib.Runs Requests Executor
open Consistency

section

variable {M : Type} {c : Setting M} {s s' : State}

theorem publish_phase (o : RemoteExecutorOptions) (key : ByteString) (a : CompiledArtifact) (s : State) :
    (publish o key a s).phase = s.phase := by
  rw [publish]
  split <;> rfl

theorem books_change {e : Event M} (h : next c s e = some s') :
    (s'.cache = s.cache ∧ s'.order = s.order) ∨
      ∃ t j a, s'.phase t = .ready j a ∧ ∀ u, u ≠ t → s'.phase u = s.phase u := by
  have hgoto : ∀ t u p, u ≠ t → (s.goto t p).phase u = s.phase u := fun t u p hu => by
    rw [State.goto_phase, if_neg hu]
  have hself : ∀ t p, (s.goto t p).phase t = p := fun t p => by
    rw [State.goto_phase, if_pos rfl]
  cases e with
  | call t model inputs =>
    rw [next] at h
    split at h <;> cases h <;> rw [call] <;> split <;> exact .inl ⟨rfl, rfl⟩
  | getOrCompile t =>
    rw [next] at h
    split at h
    · next j ht =>
      rw [getOrCompile] at h
      split at h
      · cases h
        exact .inl ⟨rfl, rfl⟩
      · split at h
        · cases h
        · split at h
          · next a _ =>
            cases h
            exact .inr ⟨t, j, a, hself t _, fun u hu => hgoto t u _ hu⟩
          · cases h
            exact .inl ⟨rfl, rfl⟩
    · cases h
  | compiled t r =>
    rw [next] at h
    split at h
    · next j ht =>
      cases h
      rw [compiled]
      split
      · dsimp only
        split
        · exact .inl ⟨rfl, rfl⟩
        · refine .inr ⟨t, j, artifactOf c j r, ?_, fun u hu => ?_⟩
          · rw [publish_phase, hself]
          · rw [publish_phase, hgoto t u _ hu]
      · exact .inl ⟨rfl, rfl⟩
    · cases h
  | compileFailed t =>
    rw [next] at h
    split at h <;> cases h
    exact .inl ⟨rfl, rfl⟩
  | load t =>
    rw [next] at h
    split at h
    · next j a ht =>
      cases h
      refine .inr ⟨t, j, { a with bytes := [] }, ?_, fun u hu => ?_⟩
      · rw [load, publish_phase]
        exact hself t _
      · rw [load, publish_phase]
        exact hgoto t u _ hu
    · cases h
  | loadFailed t lost =>
    rw [next] at h
    split at h
    · cases h
      cases lost <;> exact .inl ⟨rfl, rfl⟩
    · cases h
  | arrive k =>
    rw [next, map_eq_some_iff] at h
    obtain ⟨q, -, rfl⟩ := h
    exact .inl ⟨rfl, rfl⟩
  | execute t =>
    rw [next] at h
    split at h
    · rw [execute, map_eq_some_iff] at h
      obtain ⟨ran, -, rfl⟩ := h
      exact .inl ⟨rfl, rfl⟩
    · cases h
      exact .inl ⟨rfl, rfl⟩
    · cases h
  | executeFailed t =>
    rw [next] at h
    split at h <;> cases h <;> exact .inl ⟨rfl, rfl⟩

theorem books_of_failure {e : Event M} (h : next c s e = some s') {t : Nat} (hbefore : s.phase t ≠ .failed)
    (hafter : s'.phase t = .failed) : s'.cache = s.cache ∧ s'.order = s.order := by
  cases books_change h with
  | inl hsame => exact hsame
  | inr hready =>
    obtain ⟨u, j, a, hu, hothers⟩ := hready
    by_cases htu : t = u
    · rw [htu, hu] at hafter
      cases hafter
    · rw [hothers t htu] at hafter
      exact absurd hafter hbefore

end

section

variable {M : Type} (c : Setting M) (compiledFor : ByteString → Specialization → Prop)

/-- What is wanted of every state: the calls that have returned ran the right artifact, a key stands for
one specialization, the order list lists the cached keys, and what fails leaves both books alone. -/
structure Safe (s : State) : Prop where
  artifact : ∀ t j ran, s.phase t = .returned j ran → compiledFor ran (specialization c.options j)
  keys : ∀ i j, cacheKey c.options i = cacheKey c.options j →
    specialization c.options i = specialization c.options j
  order_nodup : s.order.Nodup
  order_keys : ∀ key, key ∈ s.order ↔ ∃ a, s.cache.get? key = some a
  bound : c.options.maxCachedModels ≠ 0 → s.order.length ≤ c.options.maxCachedModels
  unchanged : ∀ e s', next c s e = some s' → (s'.cache = s.cache ∧ s'.order = s.order) ∨
    ∃ t j a, s'.phase t = .ready j a
  failed : ∀ e s', next c s e = some s' → ∀ t, s.phase t ≠ .failed → s'.phase t = .failed →
    s'.cache = s.cache ∧ s'.order = s.order

variable {c compiledFor}

/-- As long as the ids invented for one model are all attached for one specialization, the executor runs
the right artifact, whatever fails and however the threads interleave. -/
theorem runs_right_artifact (hhash : Function.Injective c.hash) {own : ByteString → Option Specialization}
    {shapes : ByteString → List (Nat × List Int)} {s : State}
    (hrun : Run (next c) (Allowed c compiledFor own shapes) initial s) : Safe c compiledFor s := by
  have h := invariant_run hhash hrun
  refine ⟨?_, fun _ _ => cacheKey_injective, ?_, ?_, h.bound, ?_, ?_⟩
  · intro t j ran ht
    have hsound := h.phases t
    rwa [ht] at hsound
  · exact h.order.nodup_iff.mpr s.cache.nodup
  · intro key
    rw [h.order.mem_iff, Dict.mem_keys_iff]
  · intro e s' hstep
    exact (books_change hstep).imp_right fun ⟨t, j, a, ht, _⟩ => ⟨t, j, a, ht⟩
  · intro e s' hstep t hbefore hafter
    exact books_of_failure hstep hbefore hafter

end

/-- A dynamic model, compiled for each static shape and attached to the runner. -/
def attaching : Setting Unit where
  options := { compileModel := true, compilePerStaticShape := true, attachCompiledArtifact := true }
  opTypes _ := ["Relu"]
  serialize _ := [8]
  legalizer := none
  tryDLToOnnx _ := some 1
  sizeOf _ := 4
  manifestValidator := none
  hash := Encodable.encode

def vector (n : Nat) : Option DLTensor := some ⟨1, some [n], true, ⟨2, 32, 1⟩, false, some (List.replicate (4 * n) 0)⟩

/-- The artifact compiled for vectors of length `n` is the byte `n`. -/
def compiledForLength (artifact : ByteString) (spec : Specialization) : Prop :=
  ∃ n : Nat, artifact = [Fin.ofNat 256 n] ∧ n < 256 ∧ spec = ([8], [(1, [(n : Int)])])

def answer (n : Nat) : Response := ⟨[], [Fin.ofNat 256 n], []⟩

def compileRun (n : Nat) : List (Event Unit) :=
  [.call 0 () [vector n], .getOrCompile 0, .compiled 0 (answer n), .load 0, .execute 0]

/-- One length, then another, then the first again, which is cached. -/
def threeRuns : List (Event Unit) :=
  compileRun 1 ++ compileRun 2 ++ [.call 0 () [vector 1], .getOrCompile 0, .execute 0]

def jobOf (n : Nat) : Job := ⟨[8], [⟨1, [n], List.replicate (4 * n) 0⟩]⟩

theorem honest_answer {n : Nat} (hn : n < 256) :
    Honest attaching compiledForLength (fun _ => none) (jobOf n) (answer n) where
  artifact := by simp [answer]
  compiled := ⟨n, rfl, hn, rfl⟩
  own h := absurd rfl h

theorem hash_injective : Function.Injective attaching.hash := Encodable.encode_injective

theorem honest_after {pre : List (Event Unit)} {n : Nat} (hn : n < 256) {u : State}
    (hu : pre.foldlM (next attaching) initial = some u)
    (hphase : (pre.foldlM (next attaching) initial).map (fun s => s.phase 0) = some (.compiling (jobOf n))) :
    HonestStep attaching compiledForLength (fun _ => none) u (.compiled 0 (answer n)) := by
  intro j hj
  rw [hu, map_some, hj] at hphase
  cases hphase
  exact honest_answer hn

theorem honest_threeRuns (k : Nat) (u : State) (a : Event Unit)
    (hu : (threeRuns.take k).foldlM (next attaching) initial = some u) (ha : threeRuns[k]? = some a) :
    HonestStep attaching compiledForLength (fun _ => none) u a := by
  have hk : k < 13 := (List.getElem?_eq_some_iff.mp ha).1
  match k with
  | 2 =>
    cases ha
    exact honest_after (by decide) hu rfl
  | 7 =>
    cases ha
    exact honest_after (by decide) hu rfl
  | 0 | 1 | 3 | 4 | 5 | 6 | 8 | 9 | 10 | 11 | 12 =>
    cases ha
    trivial
  | k + 13 => omega

/-- The third call runs what was compiled for the second. -/
theorem wrong_artifact_runs : Function.Injective attaching.hash ∧ ∃ s,
    Run (next attaching) (HonestStep attaching compiledForLength fun _ => none) initial s ∧
      s.phase 0 = .returned (jobOf 1) [2] ∧ ¬ Safe attaching compiledForLength s := by
  obtain ⟨s, hs, hphase⟩ : ∃ s, threeRuns.foldlM (next attaching) initial = some s ∧
      s.phase 0 = .returned (jobOf 1) [2] := ⟨_, rfl, rfl⟩
  refine ⟨hash_injective, s, Run.of_foldlM honest_threeRuns hs, hphase, fun hsafe => ?_⟩
  obtain ⟨n, hbyte, hn, hspec⟩ := hsafe.artifact 0 (jobOf 1) [2] hphase
  have hone : (1 : Int) = n := by
    have hshape := congrArg (fun p : Specialization => p.2.map fun q => q.2) hspec
    simpa [specialization, attaching, jobOf] using hshape
  have hn1 : n = 1 := by omega
  rw [hn1] at hbyte
  exact absurd hbyte (by decide)

theorem runs_right_artifact_once : ∃ s, (compileRun 1).foldlM (next attaching) initial = some s ∧
    s.phase 0 = .returned (jobOf 1) [1] ∧ Safe attaching compiledForLength s := by
  obtain ⟨s, hs, hphase⟩ : ∃ s, (compileRun 1).foldlM (next attaching) initial = some s ∧
      s.phase 0 = .returned (jobOf 1) [1] := ⟨_, rfl, rfl⟩
  refine ⟨s, hs, hphase, @runs_right_artifact _ attaching compiledForLength hash_injective (fun _ => none)
    (fun _ => [(1, [1])]) s (Run.of_foldlM (fun k u a hu ha => ?_) hs)⟩
  have hk : k < 5 := (List.getElem?_eq_some_iff.mp ha).1
  match k with
  | 2 =>
    cases ha
    refine ⟨honest_after (by decide) hu rfl, fun j hj _ _ => ?_⟩
    have hwaits : ((compileRun 1).take 2).foldlM (next attaching) initial = some u := hu
    have hjob : some (u.phase 0) = some (.compiling (jobOf 1)) := by
      change Option.map (fun s : State => s.phase 0) (some u) = _
      rw [← hwaits]
      rfl
    rw [hj] at hjob
    cases hjob
    rfl
  | 0 | 1 | 3 | 4 =>
    cases ha
    exact ⟨trivial, trivial⟩
  | k + 5 => omega

end Onnxsim.Remote.RightArtifact
