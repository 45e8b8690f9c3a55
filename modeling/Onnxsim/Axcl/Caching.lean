import Onnxsim.Axcl.Runs

namespace Onnxsim.Axcl.Caching

open Lib.Bytes Storage.Pool Wire.Messages
open Controls Models Running Ledger

/-- A regular file: its identity as far as the worker looks at it, and what it holds. -/
structure File where
  mtimeNs : Int
  size : Nat
  image : ByteString

abbrev Files := ByteString → Option File

structure Worker where
  /-- The most recently used first. -/
  models : List LoadedModel
  nextStateId : Nat

/-- How a request went: refused before anything was uploaded, failed on the device, answered without a run, a state
reset, or run on a model. A run is told with what the engine executed on, and the model as it was then. -/
inductive Outcome where
  | refused
  | failed
  | answered
  | reset (id : Nat) (image : ByteString)
  | ran (m : LoadedModel) (ins : List ByteString) (resident : Option ResidentControl) (id : Nat)

/-- What a use of a model leaves of it: nothing once the device has failed. -/
structure Used where
  model : Option LoadedModel
  next : Nat
  response : Response
  outcome : Outcome

def emptyArena (m : LoadedModel) : Bool :=
  m.arenaBytes = 0 && (List.range m.inSpecs.length).any fun i => (m.arenaOffset i).isSome

/-- The `k`-th attempt to load a path. An input of the arena has no buffer where the arena is empty. -/
def loadModel (engine : Engine) (files : Files) (faults : Faults) (path : ByteString) (k : Nat) :
    Except ByteString LoadedModel :=
  match files path with
  | none => .error (ascii "AXCL model setup failed: " ++ path)
  | some file =>
    if path = [] then .error (ascii "AXCL model setup failed: " ++ path)
    else
      match faults.load k with
      | some e => .error e
      | none =>
        let m : LoadedModel :=
          { key := path
            image := file.image
            inSpecs := engine.inputs file.image
            outSpecs := engine.outputs file.image
            mtimeNs := file.mtimeNs
            fileSize := file.size
            memory := faults.fresh k
            stateId := 0
            shadow := [] }
        if emptyArena m = true then .error (ascii "AXCL input buffer setup failed") else .ok m

/-- The file is the one that the model was loaded from, as far as its identity tells. -/
def isCurrent (files : Files) (m : LoadedModel) : Bool :=
  match files m.key with
  | none => false
  | some file => file.mtimeNs = m.mtimeNs && file.size = m.fileSize

/-- Loads until it succeeds, giving back one model after the other; the least recently used comes first. -/
def loadRetrying (load : Nat → Except ByteString LoadedModel) (isFile : Bool) :
    Nat → List LoadedModel → List LoadedModel × Except ByteString LoadedModel
  | k, [] => ([], load k)
  | k, c :: rest =>
    match load k with
    | .ok m => (c :: rest, .ok m)
    | .error e => if isFile = true then loadRetrying load isFile (k + 1) rest else (c :: rest, .error e)

/-- Models are given back from the end until there are fewer than the cache may hold. -/
def makeRoom (cfg : Config) (models : List LoadedModel) : List LoadedModel := models.take (cfg.maxLoaded - 1)

def loadCached (cfg : Config) (engine : Engine) (files : Files) (faults : Faults) (path : ByteString)
    (models : List LoadedModel) : List LoadedModel × Except ByteString LoadedModel :=
  let r := loadRetrying (loadModel engine files faults path) (files path).isSome 0 (makeRoom cfg models).reverse
  (r.1.reverse, r.2)

/-- The model of a path, and the other models that are still held. -/
def acquireCached (cfg : Config) (engine : Engine) (files : Files) (faults : Faults) (path : ByteString)
    (models : List LoadedModel) : List LoadedModel × Except ByteString LoadedModel :=
  match models.find? (·.key = path) with
  | none => loadCached cfg engine files faults path models
  | some m =>
    if isCurrent files m = true then (models.eraseP (·.key = path), .ok m)
    else loadCached cfg engine files faults path (models.eraseP (·.key = path))

def withModel (cfg : Config) (engine : Engine) (files : Files) (faults : Faults) (w : Worker) (request : Request)
    (path : ByteString) (use : LoadedModel → Nat → Used) : Worker × Response × Outcome :=
  if cfg.useCache = true then
    match acquireCached cfg engine files faults path w.models with
    | (rest, .error e) => (⟨rest, w.nextStateId⟩, { requestId := request.requestId, error := e }, .refused)
    | (rest, .ok m) =>
      (⟨(use m w.nextStateId).model.toList ++ rest, (use m w.nextStateId).next⟩, (use m w.nextStateId).response,
        (use m w.nextStateId).outcome)
  else
    match loadModel engine files faults path 0 with
    | .error e => (w, { requestId := request.requestId, error := e }, .refused)
    | .ok m => (⟨w.models, (use m w.nextStateId).next⟩, (use m w.nextStateId).response, (use m w.nextStateId).outcome)

def stateManifest (id : Nat) : ByteString :=
  ascii "\x7b\"schema_version\":1,\"state_id\":" ++ decimal id ++ ascii "\x7d"

def useRun (cfg : Config) (engine : Engine) (request : Request) (faults : Faults) (resident : Option ResidentControl)
    (m : LoadedModel) (next : Nat) : Used :=
  match runLoaded cfg engine m request faults resident next with
  | .refused e => ⟨some m, next, { requestId := request.requestId, error := e }, .refused⟩
  | .failed e => ⟨none, next, { requestId := request.requestId, error := e }, .failed⟩
  | .done m' next' ran outputs =>
    ⟨some m', next',
      { requestId := request.requestId
        ok := true
        outputs := outputs
        manifest := if resident.isSome then stateManifest m'.stateId else [] },
      .ran m ran resident m'.stateId⟩

def useReset (cfg : Config) (request : Request) (faults : Faults) (m : LoadedModel) (next : Nat) : Used :=
  match resetState cfg m faults next with
  | .error e => ⟨none, next, { requestId := request.requestId, error := e }, .failed⟩
  | .ok r =>
    ⟨some r.1, r.2,
      { requestId := request.requestId
        ok := true
        artifactId := request.artifactId
        manifest := stateManifest r.1.stateId },
      .reset r.1.stateId m.image⟩

def onnxDtypeName : UInt8 → ByteString
  | 1 => ascii "FLOAT"
  | 2 => ascii "UINT8"
  | 3 => ascii "INT8"
  | 4 => ascii "UINT16"
  | 5 => ascii "INT16"
  | 6 => ascii "INT32"
  | 7 => ascii "INT64"
  | 10 => ascii "FLOAT16"
  | 11 => ascii "DOUBLE"
  | 12 => ascii "UINT32"
  | 13 => ascii "UINT64"
  | 16 => ascii "BFLOAT16"
  | _ => ascii "UNSUPPORTED"

def hexDigit (n : Nat) : Byte := if n < 10 then Fin.ofNat 256 (48 + n) else Fin.ofNat 256 (87 + n)

def jsonString (value : ByteString) : ByteString :=
  34 :: value.flatMap (fun c =>
    if c = 34 ∨ c = 92 then [92, c]
    else if c.val < 32 then [92, 117, 48, 48, hexDigit (c.val / 16), hexDigit (c.val % 16)]
    else [c]) ++ [34]

def ioSpecJson (s : IoSpec) : ByteString :=
  ascii "\x7b\"name\":" ++ jsonString s.name ++ ascii ",\"dtype\":" ++ decimal s.onnxDtype.toNat ++
    ascii ",\"dtype_name\":\"" ++ onnxDtypeName s.onnxDtype ++ ascii "\",\"axcl_dtype\":" ++ decimal s.axclDtype ++
    ascii ",\"shape\":[" ++ List.intercalate (ascii ",") (s.shape.map decimalInt) ++ ascii "],\"bytes\":" ++
    decimal s.bytes ++ ascii "\x7d"

def ioSpecsJson (specs : List IoSpec) : ByteString :=
  ascii "[" ++ List.intercalate (ascii ",") (specs.map ioSpecJson) ++ ascii "]"

def boolText (b : Bool) : ByteString := if b then ascii "true" else ascii "false"

def ioInfoManifest (cfg : Config) (path : ByteString) (m : LoadedModel) : ByteString :=
  ascii "\x7b\"schema_version\":1,\"model\":" ++ jsonString path ++ ascii ",\"cached\":" ++ boolText cfg.useCache ++
    ascii ",\"inputs\":" ++ ioSpecsJson m.inSpecs ++ ascii ",\"outputs\":" ++ ioSpecsJson m.outSpecs ++ ascii "\x7d"

def useInfo (cfg : Config) (request : Request) (path : ByteString) (m : LoadedModel) (next : Nat) : Used :=
  if (ioInfoManifest cfg path m).length > kMaxManifestBytes then
    ⟨some m, next, { requestId := request.requestId, error := ascii "AXCL io_info exceeds the manifest limit" }, .refused⟩
  else
    ⟨some m, next,
      { requestId := request.requestId
        ok := true
        artifactId := request.artifactId
        manifest := ioInfoManifest cfg path m }, .answered⟩

def validArtifactId (id : ByteString) : Bool :=
  ! id.isEmpty && id.length ≤ kMaxArtifactIdBytes && id.all fun c =>
    (97 ≤ c.val && c.val ≤ 122) || (65 ≤ c.val && c.val ≤ 90) || isDigit c || c = 46 || c = 95 || c = 45

def artifactPath (cfg : Config) (id : ByteString) : ByteString :=
  cfg.cacheDir ++ (if cfg.cacheDir.getLast? = some 47 then [] else [47]) ++ id ++ ascii ".axmodel"

/-- The artifact's file is written if the request brings it, and has to be there. -/
def materializeArtifact (cfg : Config) (files : Files) (faults : Faults) (request : Request) :
    Files × Except ByteString ByteString :=
  if validArtifactId request.artifactId = false then (files, .error (ascii "invalid AXCL artifact id"))
  else if cfg.cacheDir = [] then (files, .error (ascii "AXCL artifact cache is not configured"))
  else
    match faults.createDir with
    | some e => (files, .error (ascii "cannot create AXCL artifact cache: " ++ e))
    | none =>
      let path := artifactPath cfg request.artifactId
      let missing := ascii "AXCL artifact is not cached: " ++ request.artifactId
      if request.artifact = [] then (files, if (files path).isSome then .ok path else .error missing)
      else if request.artifact.length > kMaxArtifactBytes then (files, .error (ascii "AXCL artifact exceeds transport limit"))
      else
        match faults.publish with
        | some e => (files, .error e)
        | none =>
          (Function.update files path (some ⟨faults.published, request.artifact.length, request.artifact⟩), .ok path)

/-- The path that a request names by an artifact id or in its model field. -/
def resolveTarget (cfg : Config) (request : Request) (allowNone : Bool) : Except ByteString ByteString :=
  if request.artifactId ≠ [] then
    if validArtifactId request.artifactId = false then .error (ascii "invalid AXCL artifact id")
    else if cfg.cacheDir = [] then .error (ascii "AXCL artifact cache is not configured")
    else .ok (artifactPath cfg request.artifactId)
  else if request.model = [] ∧ allowNone = false then
    .error (ascii "AXCL " ++ request.op ++ ascii " needs an artifact id or a model path in the model field")
  else .ok request.model

def capabilitiesManifest (cfg : Config) (w : Worker) : ByteString :=
  ascii "\x7b\"schema_version\":1,\"protocol\":\"onnx-remote-v5\",\"runner_id\":\"axcl-worker\",\"ready\":true,\"graph_execution\":false,\"supported_ops\":[\"load_compiled\",\"run_compiled\",\"run\",\"io_info\",\"unload\",\"run_resident\",\"reset_state\"],\"supported_dtypes\":[\"FLOAT\",\"FLOAT16\",\"BFLOAT16\",\"DOUBLE\",\"INT8\",\"UINT8\",\"INT16\",\"UINT16\",\"INT32\",\"UINT32\",\"INT64\",\"UINT64\"],\"model_cache\":" ++
    boolText cfg.useCache ++ ascii ",\"max_loaded\":" ++ decimal (if cfg.useCache then cfg.maxLoaded else 0) ++
    ascii ",\"loaded\":" ++ decimal w.models.length ++ ascii ",\"resident_state\":" ++ boolText cfg.useCache ++
    ascii ",\"row_copy\":\"" ++ (if cfg.rowCopyOnDevice then ascii "device" else ascii "host") ++
    ascii "\",\"profiling\":true\x7d"

def refusal (request : Request) (error : ByteString) : Response := { requestId := request.requestId, error := error }

def executeResident (cfg : Config) (engine : Engine) (files : Files) (faults : Faults) (w : Worker) (request : Request)
    (path : ByteString) : Worker × Response × Outcome :=
  if cfg.useCache = false then
    (w, refusal request (ascii "resident state lost: this worker runs with --no-cache and keeps no model loaded; use the full-upload request forms"),
      .refused)
  else if request.op = ascii "reset_state" then
    withModel cfg engine files faults w request path (useReset cfg request faults)
  else
    match parse_resident_control request.artifact with
    | .error e => (w, refusal request e, .refused)
    | .ok control => withModel cfg engine files faults w request path (useRun cfg engine request faults (some control))

def executeAxmodel (cfg : Config) (engine : Engine) (files : Files) (faults : Faults) (w : Worker) (request : Request)
    (path : ByteString) : Worker × Response × Outcome :=
  withModel cfg engine files faults w request path (useRun cfg engine request faults none)

def unloadTarget (w : Worker) (request : Request) (path : ByteString) : Worker × Response × Outcome :=
  let rest := if path = [] then [] else w.models.eraseP (·.key = path)
  (⟨rest, w.nextStateId⟩,
    { requestId := request.requestId
      ok := true
      artifactId := request.artifactId
      manifest := ascii "\x7b\"schema_version\":1,\"unloaded\":" ++ decimal (w.models.length - rest.length) ++
        ascii ",\"loaded\":" ++ decimal rest.length ++ ascii "\x7d" }, .answered)

/-- The operations that name their model by an artifact id or in the model field. -/
def executeTargeted (cfg : Config) (engine : Engine) (files : Files) (faults : Faults) (w : Worker) (request : Request) :
    Worker × Response × Outcome :=
  match resolveTarget cfg request (request.op = ascii "unload") with
  | .error e => (w, refusal request e, .refused)
  | .ok path =>
    if request.op = ascii "io_info" then withModel cfg engine files faults w request path (useInfo cfg request path)
    else if request.op = ascii "run_resident" ∨ request.op = ascii "reset_state" then
      executeResident cfg engine files faults w request path
    else if request.op = ascii "run" then executeAxmodel cfg engine files faults w request path
    else unloadTarget w request path

/-- `run_compiled` and `load_compiled` -/
def executeCompiled (cfg : Config) (engine : Engine) (files : Files) (faults : Faults) (w : Worker) (request : Request) :
    Files × Worker × Response × Outcome :=
  match materializeArtifact cfg files faults request with
  | (files', .error e) => (files', w, refusal request e, .refused)
  | (files', .ok path) =>
    if request.op = ascii "load_compiled" then
      (files', w, { requestId := request.requestId, ok := true, artifactId := request.artifactId }, .answered)
    else (files', executeAxmodel cfg engine files' faults w request path)

def targeted (op : ByteString) : Prop :=
  op = ascii "io_info" ∨ op = ascii "unload" ∨ op = ascii "run" ∨ op = ascii "run_resident" ∨ op = ascii "reset_state"

instance (op : ByteString) : Decidable (targeted op) := inferInstanceAs (Decidable (_ ∨ _))

def executeRequest (cfg : Config) (engine : Engine) (files : Files) (faults : Faults) (w : Worker) (request : Request) :
    Files × Worker × Response × Outcome :=
  if request.op = ascii "capabilities" then
    (files, w,
      { requestId := request.requestId
        ok := true
        artifactId := ascii "axcl-worker"
        manifest := capabilitiesManifest cfg w }, .answered)
  else if targeted request.op then (files, executeTargeted cfg engine files faults w request)
  else if request.op ≠ ascii "run_compiled" ∧ request.op ≠ ascii "load_compiled" then
    (files, executeAxmodel cfg engine files faults w request request.op)
  else executeCompiled cfg engine files faults w request

/-- The worker among its files, with the history of the successful requests on states. -/
structure World where
  files : Files
  worker : Worker
  history : List Record

inductive Event where
  | replace (path : ByteString) (file : Option File)
  | request (request : Request) (faults : Faults)

def record (request : Request) : Outcome → Option Record
  | .reset id image => some (.reset id image)
  | .ran m _ (some control) id =>
    some (if control.state.isSome then .continued id request.inputs control.writes
      else .issued id m.image request.inputs control.writes)
  | _ => none

variable {control : ResidentControl} {ins : List ByteString} {request : Request} {id : Nat}

theorem record_issued {m : LoadedModel} (h : control.state = none) :
    record request (.ran m ins (some control) id) = some (.issued id m.image request.inputs control.writes) := by
  rw [record, h]
  rfl

theorem record_continued {m : LoadedModel} {id' : Nat} (h : control.state = some id') :
    record request (.ran m ins (some control) id) = some (.continued id request.inputs control.writes) := by
  rw [record, h]
  rfl

/-- What one event makes of the world, with the response and the outcome of a request. -/
def react (cfg : Config) (engine : Engine) (w : World) : Event → World × Option (Response × Outcome)
  | .replace path file => (⟨Function.update w.files path file, w.worker, w.history⟩, none)
  | .request request faults =>
    let r := executeRequest cfg engine w.files faults w.worker request
    (⟨r.1, r.2.1, (record request r.2.2.2).toList ++ w.history⟩, some r.2.2)

def step (cfg : Config) (engine : Engine) (w : World) (e : Event) : Option World := some (react cfg engine w e).1

def World.start (files : Files) (firstStateId : Nat) : World := ⟨files, ⟨[], firstStateId⟩, []⟩

end Onnxsim.Axcl.Caching

namespace Onnxsim.Axcl.Holding

open List Lib.Bytes Wire.Messages
open Models Running Ledger Runs Caching

variable {cfg : Config} {engine : Engine} {files : Files} {faults : Faults} {path : ByteString}
  {models rest : List LoadedModel} {m : LoadedModel}

/-- What a model is when it has just been loaded. -/
structure Fresh (engine : Engine) (files : Files) (path : ByteString) (m : LoadedModel) : Prop where
  key : m.key = path
  current : isCurrent files m = true
  described : Described engine m
  stateless : m.stateId = 0

theorem loadModel_eq_ok {k : Nat} (h : loadModel engine files faults path k = .ok m) : Fresh engine files path m := by
  rw [loadModel] at h
  split at h
  · cases h
  next file hfile =>
    split at h
    · cases h
    · split at h
      · cases h
      · dsimp only at h
        split at h
        · cases h
        · cases h
          exact ⟨rfl, by simp [isCurrent, hfile], ⟨rfl, rfl⟩, rfl⟩

variable {load : Nat → Except ByteString LoadedModel} {isFile : Bool} {k : Nat}

theorem loadRetrying_cases (load : Nat → Except ByteString LoadedModel) (isFile : Bool) (k : Nat)
    (models : List LoadedModel) :
    (loadRetrying load isFile k models).1 <:+ models ∧
      ∀ m, (loadRetrying load isFile k models).2 = .ok m → ∃ n, load n = .ok m := by
  induction models generalizing k with
  | nil => exact ⟨suffix_refl _, fun m h => ⟨k, h⟩⟩
  | cons c models ih =>
    rw [loadRetrying]
    cases hload : load k with
    | ok m => exact ⟨suffix_refl _, fun m' h => ⟨k, hload.trans h⟩⟩
    | error e =>
      dsimp only
      split
      · exact ⟨(ih (k + 1)).1.trans (suffix_cons _ _), (ih (k + 1)).2⟩
      · exact ⟨suffix_refl _, nofun⟩

/-- The models that are held at each attempt to load, one attempt after the other. -/
def heldAtLoads (load : Nat → Except ByteString LoadedModel) (isFile : Bool) :
    Nat → List LoadedModel → List (List LoadedModel)
  | _, [] => [[]]
  | k, c :: rest =>
    match load k with
    | .ok _ => [c :: rest]
    | .error _ => if isFile = true then (c :: rest) :: heldAtLoads load isFile (k + 1) rest else [c :: rest]

variable {held : List LoadedModel}

theorem heldAtLoads_suffix (h : held ∈ heldAtLoads load isFile k models) : held <:+ models := by
  induction models generalizing k with
  | nil =>
    cases mem_singleton.mp h
    exact suffix_refl _
  | cons c models ih =>
    rw [heldAtLoads] at h
    split at h
    · cases mem_singleton.mp h
      exact suffix_refl _
    · split at h
      · cases mem_cons.mp h with
        | inl heq =>
          rw [heq]
        | inr hrest => exact (ih hrest).trans (suffix_cons _ _)
      · cases mem_singleton.mp h
        exact suffix_refl _

theorem length_heldAtLoads (h : held ∈ heldAtLoads load isFile k (makeRoom cfg models).reverse) :
    held.length < cfg.maxLoaded := by
  have hlen := (heldAtLoads_suffix h).length_le
  have hpos := cfg.maxLoaded_pos
  rw [length_reverse, makeRoom, length_take] at hlen
  omega

theorem find?_perm_eraseP {α : Type} {p : α → Bool} {l : List α} {a : α} (h : l.find? p = some a) :
    (a :: l.eraseP p).Perm l := by
  induction l with
  | nil => cases h
  | cons b l ih =>
    rw [find?_cons] at h
    cases hp : p b with
    | true =>
      rw [hp] at h
      cases h
      rw [eraseP_cons_of_pos hp]
    | false =>
      rw [hp] at h
      rw [eraseP_cons_of_neg (by simp [hp])]
      exact (List.Perm.swap b a _).trans ((ih h).cons b)

theorem loadCached_cases (cfg : Config) (engine : Engine) (files : Files) (faults : Faults) (path : ByteString)
    (models : List LoadedModel) :
    (loadCached cfg engine files faults path models).1.Sublist models ∧
      (loadCached cfg engine files faults path models).1.length < cfg.maxLoaded ∧
        ∀ m, (loadCached cfg engine files faults path models).2 = .ok m → Fresh engine files path m := by
  have hcases := loadRetrying_cases (loadModel engine files faults path) (files path).isSome 0
    (makeRoom cfg models).reverse
  have hsub : (loadCached cfg engine files faults path models).1.Sublist (makeRoom cfg models) := by
    have hrev := hcases.1.sublist.reverse
    rwa [reverse_reverse] at hrev
  refine ⟨hsub.trans (take_sublist _ _), ?_, fun m hm => ?_⟩
  · have hlen := hsub.length_le
    have hpos := cfg.maxLoaded_pos
    rw [makeRoom, length_take] at hlen
    omega
  · obtain ⟨n, hn⟩ := hcases.2 m hm
    exact loadModel_eq_ok hn

/-- The model comes from the cache, which then holds the same models as before, or it is fresh and there was room
for it. -/
theorem acquireCached_cases (cfg : Config) (engine : Engine) (files : Files) (faults : Faults) (path : ByteString)
    (models : List LoadedModel) :
    (∃ m, (acquireCached cfg engine files faults path models).2 = .ok m ∧
      (m :: (acquireCached cfg engine files faults path models).1).Perm models) ∨
    (acquireCached cfg engine files faults path models).1.Sublist models ∧
      (acquireCached cfg engine files faults path models).1.length < cfg.maxLoaded ∧
        ∀ m, (acquireCached cfg engine files faults path models).2 = .ok m → Fresh engine files path m := by
  rw [acquireCached]
  split
  · exact .inr (loadCached_cases ..)
  next m hm =>
    split
    · exact .inl ⟨m, rfl, find?_perm_eraseP hm⟩
    · right
      obtain ⟨hsub, hrest⟩ := loadCached_cases cfg engine files faults path (models.eraseP (·.key = path))
      exact ⟨hsub.trans eraseP_sublist, hrest⟩

end Onnxsim.Axcl.Holding
