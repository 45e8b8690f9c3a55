import Onnxsim.Axcl.Caching

namespace Onnxsim.Axcl.Refusals

open List Lib.Bytes Wire.Messages Storage.Pool
open Controls Models Running Ledger Caching
open Holding

variable {cfg : Config} {engine : Engine} {files : Files} {faults : Faults} {request : Request} {path : ByteString}
  {models : List LoadedModel} {w : Worker} {e : ByteString}

/-- The cache as it is when the model that was looked up is put back in front. -/
def putBack (r : List LoadedModel × Except ByteString LoadedModel) : List LoadedModel :=
  match r.2 with
  | .ok m => m :: r.1
  | .error _ => r.1

/-- Looking a path up leaves the cache alone: its model is the most recently used one and its file is unchanged, or it
is not held, does not load, and no model has to go for it. -/
def Settled (cfg : Config) (engine : Engine) (files : Files) (faults : Faults) (path : ByteString)
    (models : List LoadedModel) : Prop :=
  (∃ m rest, models = m :: rest ∧ m.key = path ∧ isCurrent files m = true) ∨
    (∀ m ∈ models, m.key ≠ path) ∧ models.length < cfg.maxLoaded ∧
      (∃ e, loadModel engine files faults path 0 = .error e) ∧ (files path = none ∨ models = [])

theorem loadCached_putBack_of_room (hroom : models.length < cfg.maxLoaded)
    (hload : ∃ e, loadModel engine files faults path 0 = .error e) (hfile : files path = none ∨ models = []) :
    putBack (loadCached cfg engine files faults path models) = models := by
  obtain ⟨e, he⟩ := hload
  have hmake : makeRoom cfg models = models := take_of_length_le (by omega)
  rw [loadCached, hmake]
  cases hm : models.reverse with
  | nil =>
    rw [loadRetrying, putBack, he, reverse_eq_nil_iff.mp hm]
    rfl
  | cons c rest =>
    have hnone : files path = none := hfile.resolve_right fun h => by
      rw [h] at hm
      cases hm
    rw [loadRetrying, he, hnone]
    have hback : (c :: rest).reverse = models := by rw [← hm, reverse_reverse]
    exact hback

theorem loadCached_putBack_ok {m : LoadedModel} (hm : (loadCached cfg engine files faults path models).2 = .ok m)
    {others : List LoadedModel} (hothers : ∀ c ∈ others, c.key = path → isCurrent files c = false) :
    putBack (loadCached cfg engine files faults path models) ≠ others := by
  intro heq
  have hfresh := (loadCached_cases cfg engine files faults path models).2.2 m hm
  rw [putBack, hm] at heq
  have hmem : m ∈ others := heq ▸ mem_cons_self
  exact Bool.false_ne_true ((hothers m hmem hfresh.key).symm.trans hfresh.current)

theorem loadRetrying_error {load : Nat → Except ByteString LoadedModel} {k : Nat}
    (h : (loadRetrying load true k models).2 = .error e) : (loadRetrying load true k models).1 = [] := by
  induction models generalizing k with
  | nil => rfl
  | cons c models ih =>
    rw [loadRetrying] at h ⊢
    cases hload : load k with
    | ok m =>
      rw [hload] at h
      cases h
    | error e' =>
      rw [hload] at h
      exact ih h

theorem loadCached_putBack_error (he : (loadCached cfg engine files faults path models).2 = .error e)
    (heq : putBack (loadCached cfg engine files faults path models) = models) :
    models.length < cfg.maxLoaded ∧ (∃ e, loadModel engine files faults path 0 = .error e) ∧
      (files path = none ∨ models = []) := by
  have hcases := loadCached_cases cfg engine files faults path models
  have hlist : (loadCached cfg engine files faults path models).1 = models := by
    rwa [putBack, he] at heq
  have hroom : models.length < cfg.maxLoaded := by
    have hlen := hcases.2.1
    rwa [hlist] at hlen
  have hmake : makeRoom cfg models = models := take_of_length_le (by omega)
  refine ⟨hroom, ?_, ?_⟩
  · rw [loadCached, hmake] at he
    cases hm : models.reverse with
    | nil =>
      rw [hm] at he
      exact ⟨e, he⟩
    | cons c rest =>
      rw [hm, loadRetrying] at he
      cases hload : loadModel engine files faults path 0 with
      | ok m =>
        rw [hload] at he
        cases he
      | error e' => exact ⟨e', rfl⟩
  · cases hfile : files path with
    | none => exact .inl rfl
    | some file =>
      right
      rw [loadCached, hfile, hmake] at he hlist
      have hnil := loadRetrying_error he
      simp only [Option.isSome_some] at hlist
      rw [hnil] at hlist
      exact hlist.symm

theorem putBack_acquireCached_iff : putBack (acquireCached cfg engine files faults path models) = models ↔
    Settled cfg engine files faults path models := by
  rw [acquireCached]
  cases hfind : models.find? (·.key = path) with
  | none =>
    have habsent : ∀ m ∈ models, m.key ≠ path := by simpa using hfind
    have hno : ¬ ∃ m rest, models = m :: rest ∧ m.key = path ∧ isCurrent files m = true := by
      rintro ⟨m, rest, rfl, hkey, -⟩
      exact habsent m mem_cons_self hkey
    rw [Settled, or_iff_right hno]
    constructor
    · intro heq
      cases hres : (loadCached cfg engine files faults path models).2 with
      | ok m =>
        refine absurd heq (loadCached_putBack_ok hres fun c hc hkey => absurd hkey (habsent c hc))
      | error e => exact ⟨habsent, loadCached_putBack_error hres heq⟩
    · rintro ⟨-, hroom, hload, hfile⟩
      exact loadCached_putBack_of_room hroom hload hfile
  | some m =>
    have hkey : m.key = path := by simpa using find?_some hfind
    have hmem : m ∈ models := mem_of_find?_eq_some hfind
    have hheld : ¬ ((∀ m ∈ models, m.key ≠ path) ∧ models.length < cfg.maxLoaded ∧
        (∃ e, loadModel engine files faults path 0 = .error e) ∧ (files path = none ∨ models = [])) :=
      fun h => h.1 m hmem hkey
    dsimp only
    rw [Settled, or_iff_left hheld]
    by_cases hcur : isCurrent files m = true
    · rw [if_pos hcur]
      constructor
      · intro heq
        exact ⟨m, _, heq.symm, hkey, hcur⟩
      · rintro ⟨m', rest, rfl, hkey', -⟩
        have hm : m = m' := by
          rw [find?_cons, decide_eq_true hkey'] at hfind
          exact (Option.some.inj hfind).symm
        rw [putBack, hm, eraseP_cons_of_pos (by simpa using hkey')]
    · rw [if_neg hcur]
      refine iff_of_false ?_ ?_
      · intro heq
        have hcases := loadCached_cases cfg engine files faults path (models.eraseP (·.key = path))
        cases hres : (loadCached cfg engine files faults path (models.eraseP (·.key = path))).2 with
        | ok m' =>
          have hfresh := hcases.2.2 m' hres
          rw [putBack, hres] at heq
          rw [← heq, find?_cons, decide_eq_true hfresh.key] at hfind
          exact hcur (Option.some.inj hfind ▸ hfresh.current)
        | error e =>
          rw [putBack, hres] at heq
          have hlen := hcases.1.length_le
          have hless : (models.eraseP (·.key = path)).length = models.length - 1 :=
            length_eraseP_of_mem hmem (by simpa using hkey)
          have hpos := length_pos_of_mem hmem
          have hall : (loadCached cfg engine files faults path (models.eraseP (·.key = path))).1.length = models.length :=
            congrArg List.length heq
          omega
      · rintro ⟨m', rest, rfl, hkey', hcur'⟩
        have hm : m = m' := by
          rw [find?_cons, decide_eq_true hkey'] at hfind
          exact (Option.some.inj hfind).symm
        exact hcur (hm ▸ hcur')

/-- A use that refuses leaves the model as it is and issues nothing. -/
def KeepsRefused (use : LoadedModel → Nat → Used) : Prop :=
  ∀ m next, (use m next).outcome = .refused → (use m next).model = some m ∧ (use m next).next = next

theorem useInfo_keepsRefused : KeepsRefused (useInfo cfg request path) := by
  intro m next h
  rw [useInfo] at h ⊢
  split
  · exact ⟨rfl, rfl⟩
  · exact ⟨rfl, rfl⟩

theorem useReset_keepsRefused : KeepsRefused (useReset cfg request faults) := by
  intro m next h
  rw [useReset] at h
  split at h
  · cases h
  · cases h

theorem useRun_keepsRefused {resident : Option ResidentControl} :
    KeepsRefused (useRun cfg engine request faults resident) := by
  intro m next h
  rw [useRun] at h ⊢
  split at h
  · exact ⟨rfl, rfl⟩
  · cases h
  · cases h

variable {use : LoadedModel → Nat → Used} {files' : Files}

theorem withModel_refused_iff (huse : KeepsRefused use)
    (h : (withModel cfg engine files faults w request path use).2.2 = .refused) :
    (withModel cfg engine files faults w request path use).1 = w ↔
      (cfg.useCache = true → Settled cfg engine files faults path w.models) := by
  rw [← putBack_acquireCached_iff]
  by_cases hcache : cfg.useCache = true
  · have hworker : (withModel cfg engine files faults w request path use).1 =
        ⟨putBack (acquireCached cfg engine files faults path w.models), w.nextStateId⟩ := by
      rw [withModel, if_pos hcache] at h ⊢
      split at h
      next rest e heq => rw [putBack, heq]
      next rest m heq =>
        obtain ⟨hm, hn⟩ := huse m w.nextStateId h
        rw [putBack, heq]
        rw [hm, hn]
        rfl
    rw [hworker]
    constructor
    · intro heq _
      exact congrArg Worker.models heq
    · intro heq
      rw [heq hcache]
  · refine iff_of_true ?_ fun h => absurd h hcache
    rw [withModel, if_neg hcache] at h ⊢
    split at h
    · rfl
    next m hm =>
      obtain ⟨-, hn⟩ := huse m w.nextStateId h
      rw [hn]

/-- The path at which a request looks a model up, with the files as they are then. -/
def lookup (cfg : Config) (files : Files) (faults : Faults) (request : Request) : Option (Files × ByteString) :=
  if request.op = ascii "capabilities" then none
  else if targeted request.op then
    match resolveTarget cfg request (request.op = ascii "unload") with
    | .error _ => none
    | .ok path =>
      if request.op = ascii "io_info" then some (files, path)
      else if request.op = ascii "run_resident" ∨ request.op = ascii "reset_state" then
        if cfg.useCache = false then none
        else if request.op = ascii "reset_state" then some (files, path)
        else
          match parse_resident_control request.artifact with
          | .error _ => none
          | .ok _ => some (files, path)
      else if request.op = ascii "run" then some (files, path)
      else none
  else if request.op ≠ ascii "run_compiled" ∧ request.op ≠ ascii "load_compiled" then some (files, request.op)
  else
    match materializeArtifact cfg files faults request with
    | (_, .error _) => none
    | (files', .ok path) => if request.op = ascii "load_compiled" then none else some (files', path)

/-- What a request may do with the model that it has looked up. -/
inductive Uses (engine : Engine) (faults : Faults) (request : Request) (path : ByteString) :
    (Config → LoadedModel → Nat → Used) → Prop
  | info : Uses engine faults request path fun cfg => useInfo cfg request path
  | reset : Uses engine faults request path fun cfg => useReset cfg request faults
  | run (resident : Option ResidentControl) (hzero : resident.bind ResidentControl.state ≠ some 0) :
      Uses engine faults request path fun cfg => useRun cfg engine request faults resident

/-- How a request is served: it is refused or answered at once, or a model is looked up for it. -/
inductive Serves (engine : Engine) (files : Files) (faults : Faults) (request : Request) :
    Option (Files × ByteString) → Files → (Config → Worker → Worker × Response × Outcome) → Prop
  | refused (e : ByteString) : Serves engine files faults request none files fun _ w => (w, refusal request e, .refused)
  | answered (l : Option (Files × ByteString)) (files' : Files) (id : ByteString) (manifest : Config → Worker → ByteString) :
      Serves engine files faults request l files' fun cfg w =>
        (w, { requestId := request.requestId, ok := true, artifactId := id, manifest := manifest cfg w }, .answered)
  | unloaded (l : Option (Files × ByteString)) (path : ByteString) :
      Serves engine files faults request l files fun _ w => unloadTarget w request path
  | used {files' : Files} {path : ByteString} {use : Config → LoadedModel → Nat → Used}
      (huse : Uses engine faults request path use) : Serves engine files faults request (some (files', path)) files'
        fun cfg w => withModel cfg engine files' faults w request path (use cfg)

/-- The request stores no artifact, and looking its model up leaves the cache alone. -/
def Undisturbed (cfg : Config) (engine : Engine) (files : Files) (faults : Faults) (w : Worker) (request : Request) :
    Prop :=
  ∀ l, lookup cfg files faults request = some l →
    l.1 = files ∧ (cfg.useCache = true → Settled cfg engine l.1 faults l.2 w.models)

theorem undisturbed_of_none (h : lookup cfg files faults request = none) :
    Undisturbed cfg engine files faults w request := by
  intro l hl
  rw [h] at hl
  cases hl

theorem undisturbed_iff {l : Files × ByteString} (h : lookup cfg files faults request = some l) :
    Undisturbed cfg engine files faults w request ↔
      l.1 = files ∧ (cfg.useCache = true → Settled cfg engine l.1 faults l.2 w.models) := by
  constructor
  · intro hu
    exact hu l h
  · intro hs l' hl'
    cases h.symm.trans hl'
    exact hs

theorem materializeArtifact_error (h : materializeArtifact cfg files faults request = (files', .error e)) :
    files' = files := by
  rw [materializeArtifact] at h
  split at h
  · exact (congrArg Prod.fst h).symm
  · split at h
    · exact (congrArg Prod.fst h).symm
    · split at h
      · exact (congrArg Prod.fst h).symm
      · dsimp only at h
        split at h
        · exact (congrArg Prod.fst h).symm
        · split at h
          · exact (congrArg Prod.fst h).symm
          · split at h
            · exact (congrArg Prod.fst h).symm
            · cases h

/-- The mode of copying rows has no part in how a request is served. -/
theorem executeRequest_serves (cfg : Config) (engine : Engine) (files : Files) (faults : Faults) (request : Request) :
    ∃ l files' F, lookup cfg files faults request = l ∧ Serves engine files faults request l files' F ∧
      ∀ d w, executeRequest { cfg with rowCopyOnDevice := d } engine files faults w request =
        (files', F { cfg with rowCopyOnDevice := d } w) := by
  simp only [executeRequest, lookup]
  by_cases hcap : request.op = ascii "capabilities"
  · simp only [if_pos hcap]
    exact ⟨_, _, _, rfl, .answered none files (ascii "axcl-worker") capabilitiesManifest, fun _ _ => rfl⟩
  simp only [if_neg hcap]
  by_cases ht : targeted request.op
  · simp only [if_pos ht, executeTargeted]
    have hresolve d : resolveTarget { cfg with rowCopyOnDevice := d } request (request.op = ascii "unload") =
        resolveTarget cfg request (request.op = ascii "unload") := rfl
    simp only [hresolve]
    cases resolveTarget cfg request (request.op = ascii "unload") with
    | error e => exact ⟨_, _, _, rfl, .refused e, fun _ _ => rfl⟩
    | ok path =>
      by_cases hinfo : request.op = ascii "io_info"
      · simp only [if_pos hinfo]
        exact ⟨_, _, _, rfl, .used .info, fun _ _ => rfl⟩
      simp only [if_neg hinfo]
      by_cases hres : request.op = ascii "run_resident" ∨ request.op = ascii "reset_state"
      · simp only [if_pos hres, executeResident]
        by_cases hcache : cfg.useCache = false
        · simp only [if_pos hcache]
          exact ⟨_, _, _, rfl, .refused _, fun _ _ => rfl⟩
        simp only [if_neg hcache]
        by_cases hreset : request.op = ascii "reset_state"
        · simp only [if_pos hreset]
          exact ⟨_, _, _, rfl, .used .reset, fun _ _ => rfl⟩
        simp only [if_neg hreset]
        cases hc : parse_resident_control request.artifact with
        | error e => exact ⟨_, _, _, rfl, .refused e, fun _ _ => rfl⟩
        | ok control => exact ⟨_, _, _, rfl, .used (.run (some control) (parse_resident_control_state hc)), fun _ _ => rfl⟩
      simp only [if_neg hres]
      by_cases hrun : request.op = ascii "run"
      · simp only [if_pos hrun]
        exact ⟨_, _, _, rfl, .used (.run none (by simp)), fun _ _ => rfl⟩
      · simp only [if_neg hrun]
        exact ⟨_, _, _, rfl, .unloaded _ path, fun _ _ => rfl⟩
  simp only [if_neg ht]
  by_cases hpath : request.op ≠ ascii "run_compiled" ∧ request.op ≠ ascii "load_compiled"
  · simp only [if_pos hpath]
    exact ⟨_, _, _, rfl, .used (.run none (by simp)), fun _ _ => rfl⟩
  simp only [if_neg hpath, executeCompiled]
  have hmat d : materializeArtifact { cfg with rowCopyOnDevice := d } files faults request =
      materializeArtifact cfg files faults request := rfl
  simp only [hmat]
  cases hm : materializeArtifact cfg files faults request with
  | mk files' result =>
    cases result with
    | error e =>
      rw [materializeArtifact_error hm]
      exact ⟨_, _, _, rfl, .refused e, fun _ _ => rfl⟩
    | ok path =>
      by_cases hload : request.op = ascii "load_compiled"
      · simp only [if_pos hload]
        exact ⟨_, _, _, rfl, .answered _ files' request.artifactId fun _ _ => [], fun _ _ => rfl⟩
      · simp only [if_neg hload]
        exact ⟨_, _, _, rfl, .used (.run none (by simp)), fun _ _ => rfl⟩

/-- A refused request leaves the worker and its files as they were exactly when it disturbs nothing on the way. -/
def RefusesCleanly (cfg : Config) (engine : Engine) (files : Files) (faults : Faults) (w : Worker) (request : Request)
    (r : Files × Worker × Response × Outcome) : Prop :=
  r.2.2.2 = .refused → ((r.1 = files ∧ r.2.1 = w) ↔ Undisturbed cfg engine files faults w request)

theorem refusesCleanly_withModel (huse : KeepsRefused use)
    (hl : lookup cfg files faults request = some (files', path)) :
    RefusesCleanly cfg engine files faults w request
      (files', withModel cfg engine files' faults w request path use) := by
  intro h
  rw [undisturbed_iff hl, ← withModel_refused_iff huse h]

theorem refusesCleanly_of_none {response : Response} {outcome : Outcome}
    (hl : lookup cfg files faults request = none) :
    RefusesCleanly cfg engine files faults w request (files, w, response, outcome) :=
  fun _ => iff_of_true ⟨rfl, rfl⟩ (undisturbed_of_none hl)

theorem Uses.keepsRefused {use : Config → LoadedModel → Nat → Used} (h : Uses engine faults request path use) :
    KeepsRefused (use cfg) := by
  cases h with
  | info => exact useInfo_keepsRefused
  | reset => exact useReset_keepsRefused
  | run resident hzero => exact useRun_keepsRefused

theorem executeRequest_refusesCleanly :
    RefusesCleanly cfg engine files faults w request (executeRequest cfg engine files faults w request) := by
  obtain ⟨l, files', F, hl, hserves, heq⟩ := executeRequest_serves cfg engine files faults request
  have hexec : executeRequest cfg engine files faults w request = (files', F cfg w) := heq cfg.rowCopyOnDevice w
  rw [hexec]
  cases hserves with
  | refused e => exact refusesCleanly_of_none hl
  | answered l files' id manifest => exact nofun
  | unloaded l path => exact nofun
  | used huse => exact refusesCleanly_withModel huse.keepsRefused hl

end Onnxsim.Axcl.Refusals
