import Onnxsim.Lib.Dicts
import Onnxsim.Lib.Runs
import Onnxsim.Lib.Searching
import Onnxsim.Storage.Pool

namespace Onnxsim.Remote.Requests

open List Lib.Bytes Lib.Separators Storage.Pool

/-- A tensor as the transport carries it; `dtype` is an ONNX type code. -/
structure Tensor where
  dtype : Nat
  shape : List Int
  data : ByteString

structure RemoteExecutorOptions where
  compileModel : Bool := false
  compilePerStaticShape : Bool := false
  cacheCompiledModels : Bool := true
  /-- Zero sets no bound. -/
  maxCachedModels : Nat := 0
  attachCompiledArtifact : Bool := false
  sendCompiledArtifact : Bool := true
  /-- Empty allows every operator. -/
  supportedOps : List String := []

structure DLDataType where
  code : Nat
  bits : Nat
  lanes : Nat

/-- A `DLTensor`; a pointer that may be null is an option, `data` is what it points at behind the byte
offset. -/
structure DLTensor where
  ndim : Int
  shape : Option (List Int)
  onCPU : Bool
  dtype : DLDataType
  hasStrides : Bool
  data : Option ByteString

variable (tryDLToOnnx : DLDataType → Option Nat) (sizeOf : DLDataType → Nat)

def sizeMax : Nat := 2 ^ 64 - 1

def elementCount (limit : Nat) (message : String) (shape : List Int) : Except String Nat :=
  shape.foldlM (fun count d =>
    if d ≤ 0 ∨ limit / count < d.toNat then .error message else .ok (count * d.toNat)) 1

/-- The tensor a `Run` sends for one of its inputs. -/
def wire : Option DLTensor → Except String Tensor
  | none => .error "remote executor received invalid input tensor"
  | some t =>
    if t.ndim < 0 ∨ (0 < t.ndim ∧ t.shape = none) then
      .error "remote executor received invalid input tensor"
    else
      match tryDLToOnnx t.dtype with
      | none => .error "remote executor supports only contiguous CPU ONNX-compatible tensors"
      | some dtype =>
        if !t.onCPU || t.dtype.lanes ≠ 1 || t.hasStrides then
          .error "remote executor supports only contiguous CPU ONNX-compatible tensors"
        else do
          let shape := (t.shape.getD []).take t.ndim.toNat
          let count ← elementCount sizeMax "remote executor received invalid input shape" shape
          if sizeOf t.dtype = 0 ∨ sizeMax / sizeOf t.dtype < count then
            .error "remote executor received oversized input tensor"
          else
            match t.data with
            | none =>
              if count * sizeOf t.dtype = 0 then .ok ⟨dtype, shape, []⟩
              else .error "remote executor received null input data"
            | some data => .ok ⟨dtype, shape, data.take (count * sizeOf t.dtype)⟩

/-- What a `Run` works on once its model is legalized and its inputs are on the wire. -/
structure Job where
  serialized : ByteString
  inputs : List Tensor

variable {M : Type} (opTypes : M → List String) (serialize : M → ByteString) (legalizer : Option (M → Except String M))

def legalize (model : M) : Except String M :=
  match legalizer with
  | none => .ok model
  | some f =>
    match f model with
    | .ok prepared => .ok prepared
    | .error e => .error ("remote executor legalization: " ++ e)

/-- `Run` up to the point where it needs an artifact. -/
def prepare (o : RemoteExecutorOptions) (tryDLToOnnx : DLDataType → Option Nat)
    (sizeOf : DLDataType → Nat) (model : M) (inputs : List (Option DLTensor)) : Except String Job := do
  let prepared ← legalize legalizer model
  match (opTypes prepared).find? fun op => !o.supportedOps.isEmpty && !o.supportedOps.contains op with
  | some op => .error ("remote executor unsupported op after legalization: " ++ op)
  | none => do
    let inputs ← inputs.mapM (wire tryDLToOnnx sizeOf)
    if o.compileModel && !o.sendCompiledArtifact && !o.attachCompiledArtifact then
      .error ("remote executor compiled mode requires either send_compiled_artifact or " ++
        "attach_compiled_artifact")
    else .ok ⟨serialize prepared, inputs⟩

/-- What an artifact is compiled for: a serialized model and, with `compile_per_static_shape`, the types
and shapes of the inputs. -/
abbrev Specialization := ByteString × List (Nat × List Int)

def specialization (o : RemoteExecutorOptions) (j : Job) : Specialization :=
  (j.serialized, if o.compilePerStaticShape then j.inputs.map fun t => (t.dtype, t.shape) else [])

def separator : ByteString := 10 :: (ascii "onnxsim-static-shape-v1" ++ [10])

def dimText (d : Int) : ByteString := decimalInt d ++ [44]

def inputText (t : Nat × List Int) : ByteString :=
  decimal t.1 ++ 58 :: (decimal t.2.length ++ 58 :: (t.2.flatMap dimText ++ [59]))

def cacheKey (o : RemoteExecutorOptions) (j : Job) : ByteString :=
  if o.compilePerStaticShape then
    j.serialized ++ (separator ++ j.inputs.flatMap fun t => inputText (t.dtype, t.shape))
  else j.serialized

/-- The id an artifact gets when the compiler gave it none. -/
def inlineId (hash : ByteString → Nat) (serialized : ByteString) : ByteString :=
  ascii "inline:" ++ decimal (hash serialized)

theorem decimal_injective {m n : Nat} (h : decimal m = decimal n) : m = n := by
  have hv := congrArg digitsValue h
  rwa [digitsValue_decimal, digitsValue_decimal] at hv

theorem decimalInt_injective {c d : Int} (h : decimalInt c = decimalInt d) : c = d := by
  have hminus := notMem_decimal (c := 45) rfl
  rw [decimalInt, decimalInt] at h
  split at h <;> split at h
  · have := decimal_injective (List.cons.inj h).2
    omega
  · exact absurd (h ▸ mem_cons_self) (hminus _)
  · exact absurd (h ▸ mem_cons_self) (hminus _)
  · have := decimal_injective h
    omega

theorem dims_inj {ds es : List Int} {u v : ByteString} (hlen : ds.length = es.length)
    (h : ds.flatMap dimText ++ u = es.flatMap dimText ++ v) : ds = es ∧ u = v := by
  induction ds generalizing es with
  | nil =>
    cases es with
    | nil => exact ⟨rfl, h⟩
    | cons e es => cases hlen
  | cons d ds ih =>
    cases es with
    | nil => cases hlen
    | cons e es =>
      simp only [flatMap_cons, dimText, append_assoc, singleton_append] at h
      obtain ⟨hde, h⟩ := append_cons_inj (notMem_decimalInt rfl (by decide) d)
        (notMem_decimalInt rfl (by decide) e) h
      obtain ⟨rfl, rfl⟩ := ih (Nat.succ.inj hlen) h
      rw [decimalInt_injective hde]
      exact ⟨rfl, rfl⟩

theorem inputText_inj {s t : Nat × List Int} {u v : ByteString} (h : inputText s ++ u = inputText t ++ v) :
    s = t ∧ u = v := by
  simp only [inputText, append_assoc, cons_append, nil_append] at h
  obtain ⟨hdtype, h⟩ := append_cons_inj (notMem_decimal rfl _) (notMem_decimal rfl _) h
  obtain ⟨hrank, h⟩ := append_cons_inj (notMem_decimal rfl _) (notMem_decimal rfl _) h
  obtain ⟨hdims, h⟩ := dims_inj (decimal_injective hrank) h
  exact ⟨Prod.ext (decimal_injective hdtype) hdims, (List.cons.inj h).2⟩

theorem inputText_ne_nil (t : Nat × List Int) : inputText t ≠ [] := by
  simp [inputText, decimal_ne_nil]

theorem inputsText_inj {ss ts : List (Nat × List Int)} (h : ss.flatMap inputText = ts.flatMap inputText) :
    ss = ts := by
  induction ss generalizing ts with
  | nil =>
    cases ts with
    | nil => rfl
    | cons t ts => exact absurd (append_eq_nil_iff.mp h.symm).1 (inputText_ne_nil t)
  | cons s ss ih =>
    cases ts with
    | nil => exact absurd (append_eq_nil_iff.mp h).1 (inputText_ne_nil s)
    | cons t ts =>
      rw [flatMap_cons, flatMap_cons] at h
      obtain ⟨rfl, htail⟩ := inputText_inj h
      rw [ih htail]

theorem newline_notMem_inputs (ts : List (Nat × List Int)) : (10 : Byte) ∉ ts.flatMap inputText := by
  intro hm
  obtain ⟨t, -, hm⟩ := mem_flatMap.mp hm
  have hdims : (10 : Byte) ∉ t.2.flatMap dimText := by
    intro hd
    obtain ⟨d, -, hd⟩ := mem_flatMap.mp hd
    rcases mem_append.mp hd with hd | hd
    · exact notMem_decimalInt rfl (by decide) d hd
    · exact absurd hd (by decide)
  simp [inputText, notMem_decimal, isDigit, hdims] at hm

theorem cacheKey_injective {o : RemoteExecutorOptions} {i j : Job} (h : cacheKey o i = cacheKey o j) :
    specialization o i = specialization o j := by
  have htext : ∀ ts : List Tensor, (ts.flatMap fun t => inputText (t.dtype, t.shape)) =
      (ts.map fun t => (t.dtype, t.shape)).flatMap inputText := by
    intro ts
    rw [flatMap_map]
  rw [cacheKey, cacheKey] at h
  rw [specialization, specialization]
  cases hper : o.compilePerStaticShape with
  | false =>
    rw [hper] at h
    exact congrArg (·, []) h
  | true =>
    rw [hper, if_pos rfl, if_pos rfl, htext, htext] at h
    have hsplit : ∀ u : ByteString, separator ++ u = (10 :: ascii "onnxsim-static-shape-v1") ++ 10 :: u := by
      intro u
      rw [separator, cons_append, append_assoc]
      rfl
    rw [hsplit, hsplit, ← append_assoc, ← append_assoc] at h
    obtain ⟨hser, hin⟩ := append_cons_inj_right (newline_notMem_inputs _) (newline_notMem_inputs _) h
    rw [append_cancel_right hser, if_pos rfl, if_pos rfl, inputsText_inj hin]

theorem inlineId_injective {hash : ByteString → Nat} (hh : Function.Injective hash) {s t : ByteString}
    (h : inlineId hash s = inlineId hash t) : s = t :=
  hh (decimal_injective (append_cancel_left h))

end Onnxsim.Remote.Requests

namespace Onnxsim.Remote.Executor

open Lib.Bytes Lib.Dicts Requests

structure CompiledArtifact where
  id : ByteString
  bytes : ByteString
  manifest : ByteString

/-- What a compiler answers. -/
structure Response where
  artifactId : ByteString
  artifact : ByteString
  manifest : ByteString

/-- Where a thread's `Run` stands; a thread runs one call after the other. -/
inductive Phase where
  | idle
  | prepared (j : Job)
  | compiling (j : Job)
  | loading (j : Job) (a : CompiledArtifact)
  | ready (j : Job) (a : CompiledArtifact)
  | uncompiled (j : Job)
  | returned (j : Job) (ran : ByteString)
  | failed

/-- The executor's cache with its order list and its lock, the calls, and the runner: the bytes loaded
under each id and the loads still on their way whose sender has given up. -/
structure State where
  cache : Dict ByteString CompiledArtifact
  order : List ByteString
  lock : Option Nat
  phase : Nat → Phase
  loaded : Dict ByteString ByteString
  late : List (ByteString × ByteString)

/-- What happens to a load that fails for its sender. -/
inductive Lost where
  | dropped
  | arrived
  | delayed

inductive Event (M : Type) where
  | call (t : Nat) (model : M) (inputs : List (Option DLTensor))
  | getOrCompile (t : Nat)
  | compiled (t : Nat) (r : Response)
  | compileFailed (t : Nat)
  | load (t : Nat)
  | loadFailed (t : Nat) (lost : Lost)
  | arrive (k : Nat)
  | execute (t : Nat)
  | executeFailed (t : Nat)

/-- What surrounds the executor: the model's parts, the type tables of the tensor bridge, the two hooks and
the hash. -/
structure Setting (M : Type) where
  options : RemoteExecutorOptions
  opTypes : M → List String
  serialize : M → ByteString
  legalizer : Option (M → Except String M)
  tryDLToOnnx : DLDataType → Option Nat
  sizeOf : DLDataType → Nat
  manifestValidator : Option (ByteString → Bool)
  hash : ByteString → Nat

def initial : State := ⟨.empty, [], none, fun _ => .idle, .empty, []⟩

def State.goto (s : State) (t : Nat) (p : Phase) : State := { s with phase := Function.update s.phase t p }

theorem State.goto_phase (s : State) (t u : Nat) (p : Phase) :
    (s.goto t p).phase u = if u = t then p else s.phase u := Function.update_apply ..

/-- The `while` loop that makes room for one more artifact. -/
def evict (max : Nat) : List ByteString → Dict ByteString CompiledArtifact →
    Dict ByteString CompiledArtifact × List ByteString
  | [], cache => (cache, [])
  | key :: order, cache =>
    if max ≤ cache.entries.length then evict max order (cache.erase key) else (cache, key :: order)

def publish (o : RemoteExecutorOptions) (key : ByteString) (a : CompiledArtifact) (s : State) : State :=
  if o.cacheCompiledModels then
    let room := if o.maxCachedModels ≠ 0 then evict o.maxCachedModels s.order s.cache else (s.cache, s.order)
    { s with cache := room.1.set key a, order := room.2 ++ [key], lock := none }
  else s

def State.fail (s : State) (t : Nat) : State :=
  { s.goto t .failed with lock := if s.lock = some t then none else s.lock }

/-- What the runner executes: the bytes of the request, or else those it has loaded under the id. -/
def runner (loaded : Dict ByteString ByteString) (id bytes : ByteString) : Option ByteString :=
  if bytes ≠ [] then some bytes else loaded.get? id

def State.lose (s : State) (a : CompiledArtifact) : Lost → State
  | .dropped => s
  | .arrived => { s with loaded := s.loaded.set a.id a.bytes }
  | .delayed => { s with late := s.late ++ [(a.id, a.bytes)] }

variable {M : Type} (c : Setting M)

/-- A new `Run`, once the thread's last one is over. -/
def call (s : State) (t : Nat) (model : M) (inputs : List (Option DLTensor)) : State :=
  match prepare c.opTypes c.serialize c.legalizer c.options c.tryDLToOnnx c.sizeOf model inputs with
  | .error _ => s.goto t .failed
  | .ok j => s.goto t (if c.options.compileModel then .prepared j else .uncompiled j)

/-- `GetOrCompile` up to the exchange with the compiler. With caching the lock is taken, and kept unless
the artifact is there. -/
def getOrCompile (s : State) (t : Nat) (j : Job) : Option State :=
  if !c.options.cacheCompiledModels then some (s.goto t (.compiling j))
  else if s.lock ≠ none then none
  else
    match s.cache.get? (cacheKey c.options j) with
    | some a =>
      let key := cacheKey c.options j
      some { s.goto t (.ready j a) with order := s.order.erase key ++ [key] }
    | none => some { s.goto t (.compiling j) with lock := some t }

def accepted (r : Response) : Bool :=
  (match c.manifestValidator with
    | some valid => valid r.manifest
    | none => true) && !(r.artifactId.isEmpty && r.artifact.isEmpty)

def artifactOf (j : Job) (r : Response) : CompiledArtifact :=
  ⟨if r.artifactId.isEmpty then inlineId c.hash j.serialized else r.artifactId, r.artifact, r.manifest⟩

/-- `GetOrCompile` from the compiler's answer on. -/
def compiled (s : State) (t : Nat) (j : Job) (r : Response) : State :=
  if accepted c r then
    let a := artifactOf c j r
    if c.options.attachCompiledArtifact then s.goto t (.loading j a)
    else publish c.options (cacheKey c.options j) a (s.goto t (.ready j a))
  else s.fail t

/-- The runner has taken the artifact in, whose bytes are no longer kept. -/
def load (s : State) (t : Nat) (j : Job) (a : CompiledArtifact) : State :=
  let kept : CompiledArtifact := { a with bytes := [] }
  publish c.options (cacheKey c.options j) kept
    { s.goto t (.ready j kept) with loaded := s.loaded.set a.id a.bytes }

def execute (s : State) (t : Nat) (j : Job) (a : CompiledArtifact) : Option State :=
  (runner s.loaded a.id (if c.options.sendCompiledArtifact then a.bytes else [])).map fun ran =>
    s.goto t (.returned j ran)

def next (s : State) : Event M → Option State
  | .call t model inputs =>
    match s.phase t with
    | .idle | .returned _ _ | .failed => some (call c s t model inputs)
    | _ => none
  | .getOrCompile t =>
    match s.phase t with
    | .prepared j => getOrCompile c s t j
    | _ => none
  | .compiled t r =>
    match s.phase t with
    | .compiling j => some (compiled c s t j r)
    | _ => none
  | .compileFailed t =>
    match s.phase t with
    | .compiling _ => some (s.fail t)
    | _ => none
  | .load t =>
    match s.phase t with
    | .loading j a => some (load c s t j a)
    | _ => none
  | .loadFailed t lost =>
    match s.phase t with
    | .loading _ a => some ((s.lose a lost).fail t)
    | _ => none
  | .arrive k =>
    (s.late[k]?).map fun late =>
      { s with loaded := s.loaded.set late.1 late.2, late := s.late.eraseIdx k }
  | .execute t =>
    match s.phase t with
    | .ready j a => execute c s t j a
    | .uncompiled _ => some (s.goto t .idle)
    | _ => none
  | .executeFailed t =>
    match s.phase t with
    | .ready _ _ | .uncompiled _ => some (s.goto t .failed)
    | _ => none

end Onnxsim.Remote.Executor
