import Onnxsim.Storage.Atomicity

namespace Onnxsim.Storage.HeaderPositions

open Option Lib.Bytes Lib.Readers Pool Gguf Loaders

section

variable (file : ByteString)

/-- The number in the `k` bytes at `pos`, where the file has them. -/
def fieldAt (pos k : Nat) : Option Nat :=
  if pos + k ≤ file.length then some (ofLE ((file.drop pos).take k)) else none

/-- Where a string at `pos` ends. -/
def stringEnd (pos : Nat) : Option Nat := do
  let len ← fieldAt file pos 8
  if len ≤ kMaxStringLen ∧ pos + 8 + len ≤ file.length then some (pos + 8 + len) else none

def stringsEnd : Nat → Nat → Option Nat
  | 0, pos => some pos
  | n + 1, pos => do
    let next ← stringEnd file pos
    stringsEnd n next

/-- Where `size` bytes from `pos` on end, as far as a stream position can tell; the file need not be that long. -/
def skipEnd (pos size : Nat) : Option Nat :=
  let target : Int := pos + (Int64.ofNat size).toInt
  if target < 0 ∨ 2 ^ 63 ≤ target then none else some target.toNat

def arrayEnd (pos : Nat) : Option Nat := do
  let elemType ← fieldAt file pos 4
  let len ← fieldAt file (pos + 4) 8
  if elemType = typeArray then none
  else if elemType = typeString then stringsEnd file len (pos + 12)
  else if fixedMetadataScalarSize elemType = 0 then none
  else skipEnd (pos + 12) (fixedMetadataScalarSize elemType * len)

def valueEnd (pos valueType : Nat) : Option Nat :=
  if valueType = typeString then stringEnd file pos
  else if valueType = typeArray then arrayEnd file pos
  else if fixedMetadataScalarSize valueType = 0 then none
  else if pos + fixedMetadataScalarSize valueType ≤ file.length then some (pos + fixedMetadataScalarSize valueType)
  else none

/-- Where `n` metadata entries from `pos` on end. -/
def metadataEnd : Nat → Nat → Option Nat
  | 0, pos => some pos
  | n + 1, pos => do
    let key ← stringEnd file pos
    let valueType ← fieldAt file key 4
    let next ← valueEnd file (key + 4) valueType
    metadataEnd n next

end

variable {c : Cursor Byte} {pos : Nat} {next : Nat → Option Nat}

section

variable (file : ByteString) {α β : Type}

def cursorAt (pos : Nat) : Cursor Byte := ⟨pos, file.drop pos⟩

def Fails (r : Except String (α × Cursor Byte)) : Prop := ∃ e, r = .error e

def Inside (r : Except String (α × Cursor Byte)) : Prop :=
  ∀ a c, r = .ok (a, c) → ∃ e ≤ file.length, c = cursorAt file e

def Past (r : Except String (α × Cursor Byte)) : Prop := ∃ a e, r = .ok (a, cursorAt file e) ∧ file.length < e

/-- The read ends where `o` says, if it succeeds. -/
def Ends (r : Except String (α × Cursor Byte)) : Option Nat → Prop
  | some e => ∃ a, r = .ok (a, cursorAt file e)
  | none => Fails r

/-- Reading the mapped bytes gives what reading the file gives, unless that ends past the end. -/
def Compares (m s : Except String (α × Cursor Byte)) : Prop :=
  (m = s ∧ Inside file s) ∨ (Fails m ∧ (Fails s ∨ Past file s))

variable {file}

theorem inside_of_fails {r : Except String (α × Cursor Byte)} (h : Fails r) : Inside file r := by
  intro a c hok
  obtain ⟨e, he⟩ := h
  rw [he] at hok
  cases hok

variable {f g : α → FileReader β}

theorem run_bind_fails {p : FileReader α} (h : Fails (p c)) : Fails ((p >>= f) c) := by
  obtain ⟨e, he⟩ := h
  exact ⟨e, by rw [run_bind, he]⟩

theorem fails_or_inside {r : Except String (α × Cursor Byte)} (h : Inside file r) :
    Fails r ∨ ∃ a e, e ≤ file.length ∧ r = .ok (a, cursorAt file e) := by
  cases hr : r with
  | error e => exact .inl ⟨e, rfl⟩
  | ok x =>
    obtain ⟨a, c⟩ := x
    obtain ⟨e, he, rfl⟩ := h a c hr
    exact .inr ⟨a, e, he, rfl⟩

theorem Inside.bind {p : FileReader α} (hp : Inside file (p (cursorAt file pos)))
    (hf : ∀ a e, e ≤ file.length → Inside file (f a (cursorAt file e))) :
    Inside file ((p >>= f) (cursorAt file pos)) := by
  rcases fails_or_inside hp with hfail | ⟨a, e, he, hok⟩
  · exact inside_of_fails (run_bind_fails hfail)
  · rw [run_bind_ok hok]
    exact hf a e he

theorem compares_bind_same {p : FileReader α} (hp : Inside file (p (cursorAt file pos)))
    (hfg : ∀ a e, e ≤ file.length → Compares file (f a (cursorAt file e)) (g a (cursorAt file e))) :
    Compares file ((p >>= f) (cursorAt file pos)) ((p >>= g) (cursorAt file pos)) := by
  rcases fails_or_inside hp with hfail | ⟨a, e, he, hok⟩
  · exact .inr ⟨run_bind_fails hfail, .inl (run_bind_fails hfail)⟩
  · rw [run_bind_ok hok, run_bind_ok hok]
    exact hfg a e he

theorem Compares.bind {p q : FileReader α} (hpq : Compares file (p (cursorAt file pos)) (q (cursorAt file pos)))
    (hfg : ∀ a e, e ≤ file.length → Compares file (f a (cursorAt file e)) (g a (cursorAt file e)))
    (hpast : ∀ a e, file.length < e → Fails (g a (cursorAt file e)) ∨ Past file (g a (cursorAt file e))) :
    Compares file ((p >>= f) (cursorAt file pos)) ((q >>= g) (cursorAt file pos)) := by
  rcases hpq with ⟨heq, hin⟩ | ⟨hfail, hfail' | ⟨a, e, hok, hlt⟩⟩
  · rcases fails_or_inside hin with hfail | ⟨a, e, he, hok⟩
    · rw [← heq] at hfail
      refine .inr ⟨run_bind_fails hfail, .inl (run_bind_fails ?_)⟩
      rwa [← heq]
    · rw [run_bind_ok hok, run_bind_ok (heq.trans hok)]
      exact hfg a e he
  · exact .inr ⟨run_bind_fails hfail, .inl (run_bind_fails hfail')⟩
  · refine .inr ⟨run_bind_fails hfail, ?_⟩
    rw [run_bind_ok hok]
    exact hpast a e hlt

theorem Ends.bind {p : FileReader α} {o : Option Nat} (hp : Ends file (p (cursorAt file pos)) o)
    (hf : ∀ a e, Ends file (f a (cursorAt file e)) (next e)) :
    Ends file ((p >>= f) (cursorAt file pos)) (o.bind next) := by
  cases o with
  | none => exact run_bind_fails hp
  | some e =>
    obtain ⟨a, hok⟩ := hp
    rw [run_bind_ok hok]
    exact hf a e

end

variable {file : ByteString} {path : String} {what : String} {n k v : Nat}

theorem readBytes_ok (h : pos + n ≤ file.length) :
    readBytes path what n (cursorAt file pos) = .ok ((file.drop pos).take n, cursorAt file (pos + n)) := by
  have hlen : ¬ (file.drop pos).length < n := by
    rw [List.length_drop]
    omega
  rw [readBytes, cursorAt, if_neg hlen, List.drop_drop]
  rfl

theorem readBytes_fails (h : ¬ pos + n ≤ file.length) (hn : 0 < n ∨ pos ≤ file.length) :
    Fails (readBytes path what n (cursorAt file pos)) := by
  have hlen : (file.drop pos).length < n := by
    rw [List.length_drop]
    omega
  rw [readBytes, cursorAt, if_pos hlen]
  exact ⟨_, rfl⟩

theorem inside_readBytes (hn : 0 < n ∨ pos ≤ file.length) :
    Inside file (readBytes path what n (cursorAt file pos)) := by
  by_cases h : pos + n ≤ file.length
  · rw [readBytes_ok h]
    intro a c hok
    cases hok
    exact ⟨pos + n, h, rfl⟩
  · exact inside_of_fails (readBytes_fails h hn)

theorem readLE_some (h : fieldAt file pos k = some v) :
    readLE path k (cursorAt file pos) = .ok (v, cursorAt file (pos + k)) := by
  rw [fieldAt] at h
  split at h
  · next hle =>
    cases h
    rw [readLE, run_bind_ok (readBytes_ok hle)]
    rfl
  · cases h

theorem readLE_none (hk : 0 < k) (h : fieldAt file pos k = none) : Fails (readLE path k (cursorAt file pos)) := by
  rw [fieldAt] at h
  split at h
  · cases h
  · next hle => exact run_bind_fails (readBytes_fails hle (.inl hk))

theorem inside_readLE (hk : 0 < k) : Inside file (readLE path k (cursorAt file pos)) := by
  refine (inside_readBytes (.inl hk)).bind fun bytes e he a c hok => ?_
  cases hok
  exact ⟨e, he, rfl⟩

theorem le_of_fieldAt (h : fieldAt file pos k = some v) : pos + k ≤ file.length := by
  rw [fieldAt] at h
  split at h
  · next hle => exact hle
  · cases h

theorem ends_readLE_bind {β : Type} {f : Nat → FileReader β} (hk : 0 < k)
    (hf : ∀ v, fieldAt file pos k = some v → Ends file (f v (cursorAt file (pos + k))) (next v)) :
    Ends file ((readLE path k >>= f) (cursorAt file pos)) ((fieldAt file pos k).bind next) := by
  cases h : fieldAt file pos k with
  | none => exact run_bind_fails (readLE_none hk h)
  | some v =>
    rw [run_bind_ok (readLE_some h)]
    exact hf v h

theorem fails_failRead {α : Type} : Fails (failRead (α := α) path what c) := ⟨_, rfl⟩

theorem ends_string (pos : Nat) : Ends file (readGGUFString path (cursorAt file pos)) (stringEnd file pos) := by
  refine ends_readLE_bind (by decide) fun len hlen => ?_
  have hpos := le_of_fieldAt hlen
  by_cases hmax : kMaxStringLen < len
  · rw [if_pos hmax, if_neg (by omega)]
    exact fails_failRead
  · rw [if_neg hmax]
    by_cases hle : pos + 8 + len ≤ file.length
    · rw [if_pos ⟨Nat.not_lt.mp hmax, hle⟩]
      exact ⟨_, readBytes_ok hle⟩
    · rw [if_neg fun h => hle h.2]
      exact readBytes_fails hle (.inr hpos)

theorem inside_string (pos : Nat) : Inside file (readGGUFString path (cursorAt file pos)) := by
  refine (inside_readLE (by decide)).bind fun len e he => ?_
  split
  · exact inside_of_fails fails_failRead
  · exact inside_readBytes (.inr he)

theorem inside_readMany {α : Type} {p : FileReader α} (hp : ∀ pos, Inside file (p (cursorAt file pos))) (n : Nat) :
    ∀ pos ≤ file.length, Inside file (readMany p n (cursorAt file pos)) := by
  induction n with
  | zero =>
    intro pos hpos a c hok
    cases hok
    exact ⟨pos, hpos, rfl⟩
  | succ n ih =>
    intro pos _
    refine (hp pos).bind fun a e he => (ih e he).bind fun as e' he' b c hok => ?_
    cases hok
    exact ⟨e', he', rfl⟩

theorem ends_strings (n pos : Nat) :
    Ends file (readMany (readGGUFString path) n (cursorAt file pos)) (stringsEnd file n pos) := by
  induction n generalizing pos with
  | zero => exact ⟨[], rfl⟩
  | succ n ih =>
    refine (ends_string pos).bind fun a e => ?_
    have hrest := ih e
    cases hnext : stringsEnd file n e with
    | none =>
      rw [hnext] at hrest
      exact run_bind_fails hrest
    | some e' =>
      rw [hnext] at hrest
      obtain ⟨as, has⟩ := hrest
      exact ⟨a :: as, by rw [run_bind_ok has]; rfl⟩

theorem ends_seek (pos size : Nat) : Ends file (seekCur file path size (cursorAt file pos)) (skipEnd pos size) := by
  rw [seekCur, skipEnd, cursorAt]
  simp only
  split
  · exact fails_failRead
  · exact ⟨(), rfl⟩

theorem ends_array (pos : Nat) :
    Ends file (skipArrayWith (seekCur file path) path (cursorAt file pos)) (arrayEnd file pos) := by
  refine ends_readLE_bind (by decide) fun elemType _ => ends_readLE_bind (by decide) fun len _ => ?_
  by_cases harray : elemType = typeArray
  · rw [if_pos harray, if_pos harray]
    exact fails_failRead
  rw [if_neg harray, if_neg harray]
  by_cases hstring : elemType = typeString
  · rw [if_pos hstring, if_pos hstring]
    have hpure : ∀ (as : List ByteString) e, Ends file ((pure () : FileReader Unit) (cursorAt file e)) (some e) :=
      fun as e => ⟨(), rfl⟩
    have hends := (@ends_strings _ path len (pos + 4 + 8)).bind hpure
    rwa [bind_fun_some] at hends
  rw [if_neg hstring, if_neg hstring]
  split
  · exact fails_failRead
  · exact ends_seek _ _

theorem ends_value (pos valueType : Nat) :
    Ends file (skipMetadataValueWith (seekCur file path) path valueType (cursorAt file pos))
      (valueEnd file pos valueType) := by
  have hpure : ∀ {α : Type} (a : α) e, Ends file ((pure none : FileReader (Option Nat)) (cursorAt file e)) (some e) :=
    fun a e => ⟨none, rfl⟩
  rw [skipMetadataValueWith, valueEnd]
  by_cases hstring : valueType = typeString
  · rw [if_pos hstring, if_pos hstring]
    have hends := (@ends_string _ path pos).bind hpure
    rwa [bind_fun_some] at hends
  rw [if_neg hstring, if_neg hstring]
  by_cases harray : valueType = typeArray
  · rw [if_pos harray, if_pos harray]
    have hends := (@ends_array _ path pos).bind hpure
    rwa [bind_fun_some] at hends
  rw [if_neg harray, if_neg harray]
  by_cases hsize : fixedMetadataScalarSize valueType = 0
  · rw [if_pos hsize, if_pos hsize]
    exact fails_failRead
  rw [if_neg hsize, if_neg hsize]
  by_cases hle : pos + fixedMetadataScalarSize valueType ≤ file.length
  · rw [if_pos hle]
    exact ⟨_, by rw [run_bind_ok (readBytes_ok hle)]; rfl⟩
  · rw [if_neg hle]
    exact run_bind_fails (readBytes_fails hle (.inl (Nat.pos_of_ne_zero hsize)))

theorem ends_metadata (n alignment pos : Nat) :
    Ends file (readAlignmentWith (seekCur file path) path n alignment (cursorAt file pos)) (metadataEnd file n pos) := by
  induction n generalizing alignment pos with
  | zero => exact ⟨alignment, rfl⟩
  | succ n ih =>
    refine (ends_string pos).bind fun key e => ends_readLE_bind (by decide) fun valueType _ => ?_
    exact (ends_value (e + 4) valueType).bind fun numeric e' => ih _ e'

variable {α : Type} {e : Nat}

theorem compares_same {r : Except String (α × Cursor Byte)} (h : Inside file r) : Compares file r r :=
  .inl ⟨rfl, h⟩

theorem compares_seek {size : Nat} (hlen : file.length < maxFileSize) :
    Compares file (seekMapped file path size (cursorAt file pos)) (seekCur file path size (cursorAt file pos)) := by
  rw [maxFileSize] at hlen
  rw [seekMapped, seekCur, cursorAt]
  simp only
  by_cases hneg : (pos : Int) + (Int64.ofNat size).toInt < 0
  · rw [if_pos (.inl hneg), if_pos (.inl hneg)]
    exact .inr ⟨fails_failRead, .inl fails_failRead⟩
  by_cases hmap : (file.length : Int) < pos + (Int64.ofNat size).toInt
  · rw [if_pos (.inr hmap)]
    refine .inr ⟨fails_failRead, ?_⟩
    split
    · exact .inl fails_failRead
    · refine .inr ⟨(), _, rfl, ?_⟩
      omega
  · rw [if_neg (by omega), if_neg (by omega)]
    refine compares_same fun a c hok => ?_
    cases hok
    exact ⟨_, by omega, rfl⟩

theorem inside_pure {a : α} (he : e ≤ file.length) : Inside file ((pure a : FileReader α) (cursorAt file e)) := by
  intro b c hok
  cases hok
  exact ⟨e, he, rfl⟩

theorem past_pure {a : α} (he : file.length < e) : Past file ((pure a : FileReader α) (cursorAt file e)) := ⟨a, e, rfl, he⟩

theorem compares_array (hlen : file.length < maxFileSize) :
    Compares file (skipArrayWith (seekMapped file path) path (cursorAt file pos))
      (skipArrayWith (seekCur file path) path (cursorAt file pos)) := by
  refine compares_bind_same (inside_readLE (by decide)) fun elemType e _ => ?_
  refine compares_bind_same (inside_readLE (by decide)) fun len e he => ?_
  split
  · exact compares_same (inside_of_fails fails_failRead)
  split
  · exact compares_same ((inside_readMany inside_string len e he).bind fun as e' he' => inside_pure he')
  split
  · exact compares_same (inside_of_fails fails_failRead)
  · exact compares_seek hlen

theorem compares_value {valueType : Nat} (hlen : file.length < maxFileSize) :
    Compares file (skipMetadataValueWith (seekMapped file path) path valueType (cursorAt file pos))
      (skipMetadataValueWith (seekCur file path) path valueType (cursorAt file pos)) := by
  rw [skipMetadataValueWith, skipMetadataValueWith]
  split
  · exact compares_same ((inside_string pos).bind fun s e he => inside_pure he)
  split
  · exact (compares_array hlen).bind (fun _ e he => compares_same (inside_pure he)) fun _ e he => .inr (past_pure he)
  split
  · exact compares_same (inside_of_fails fails_failRead)
  · next hsize =>
    have hpos : 0 < fixedMetadataScalarSize valueType := Nat.pos_of_ne_zero hsize
    exact compares_same ((inside_readBytes (.inl hpos)).bind fun bytes e he => inside_pure he)

theorem fails_string_past (h : file.length < pos) : Fails (readGGUFString path (cursorAt file pos)) := by
  apply run_bind_fails
  apply readLE_none (by decide)
  rw [fieldAt, if_neg (by omega)]

theorem compares_metadata (hlen : file.length < maxFileSize) (n alignment : Nat) :
    ∀ pos ≤ file.length, Compares file (readAlignmentWith (seekMapped file path) path n alignment (cursorAt file pos))
      (readAlignmentWith (seekCur file path) path n alignment (cursorAt file pos)) := by
  induction n generalizing alignment with
  | zero =>
    intro pos hpos
    rw [readAlignmentWith, readAlignmentWith]
    exact compares_same (inside_pure hpos)
  | succ n ih =>
    intro pos _
    rw [readAlignmentWith, readAlignmentWith]
    refine compares_bind_same (inside_string pos) fun key e _ => ?_
    refine compares_bind_same (inside_readLE (by decide)) fun valueType e _ => ?_
    refine (compares_value hlen).bind (fun numeric e he => ih _ e he) fun numeric e he => ?_
    cases n with
    | zero =>
      rw [readAlignmentWith]
      exact .inr (past_pure he)
    | succ n =>
      rw [readAlignmentWith]
      exact .inl (run_bind_fails (fails_string_past he))

theorem inside_tensorInfo (pos : Nat) : Inside file (readTensorInfo path (cursorAt file pos)) := by
  refine (inside_string pos).bind fun name e _ => (inside_readLE (by decide)).bind fun nDims e he => ?_
  split
  · exact inside_of_fails fails_failRead
  refine (inside_readMany (fun p => inside_readLE (by decide)) nDims e he).bind fun ne e _ => ?_
  refine (inside_readLE (by decide)).bind fun ggmlType e _ => (inside_readLE (by decide)).bind fun offset e he => ?_
  exact inside_pure he

theorem fails_tensorInfo_past (h : file.length < pos) : Fails (readTensorInfo path (cursorAt file pos)) :=
  run_bind_fails (fails_string_past h)

theorem inside_counts (pos : Nat) : Inside file (readCounts path (cursorAt file pos)) := by
  refine (inside_readLE (by decide)).bind fun magic e _ => ?_
  split
  · exact inside_of_fails fails_failRead
  refine (inside_readLE (by decide)).bind fun version e _ => ?_
  split
  · exact inside_of_fails fails_failRead
  refine (inside_readLE (by decide)).bind fun tensorCount e _ => (inside_readLE (by decide)).bind fun n e he => ?_
  split
  · exact inside_of_fails fails_failRead
  split
  · exact inside_of_fails fails_failRead
  · exact inside_pure he

theorem compares_layout (hlen : file.length < maxFileSize) :
    Compares file (readLayoutWith (seekMapped file path) path (cursorAt file 0))
      (readLayoutWith (seekCur file path) path (cursorAt file 0)) := by
  refine compares_bind_same (inside_counts 0) fun counts e he => ?_
  refine (compares_metadata hlen counts.2 _ e he).bind (fun alignment e he => ?_) fun alignment e he => ?_
  · exact compares_same ((inside_readMany inside_tensorInfo counts.1 e he).bind fun infos e he => inside_pure he)
  · cases counts.1 with
    | zero => exact .inr (past_pure he)
    | succ n => exact .inl (run_bind_fails (run_bind_fails (fails_tensorInfo_past he)))

end Onnxsim.Storage.HeaderPositions
