import Onnxsim.Axcl.Running

namespace Onnxsim.Axcl.Ledger

open Lib.Bytes Lib.Memories Wire.Messages
open Controls Models Running

/-- What a state id stands for: a model and the contents of its inputs. -/
structure Resident where
  image : ByteString
  contents : List ByteString

/-- What a tensor brings for its input; an empty one brings nothing. -/
def sent (t : Tensor) : Option ByteString := if sourceBytes t = [] then none else some (sourceBytes t)

/-- The inputs once what is sent has replaced what was there. -/
def replaced (cs : List ByteString) (us : List (Option ByteString)) : List ByteString :=
  List.zipWith (fun c u => u.getD c) cs us

def applyWrite (outs cs : List ByteString) (w : RowWrite) : List ByteString :=
  cs.modify w.into (overwrite (w.slot * (outs.getD w.out []).length) (outs.getD w.out []))

/-- One run: the engine executes on the inputs, and rows of its outputs are written back in order. -/
def Resident.run (engine : Engine) (r : Resident) (us : List (Option ByteString)) (ws : List RowWrite) : Resident :=
  ⟨r.image, ws.foldl (applyWrite (engine.execute r.image (replaced r.contents us))) (replaced r.contents us)⟩

/-- A successful request on a state: the zero fill or the full upload that issued it, or one that continued it. -/
inductive Record where
  | reset (id : Nat) (image : ByteString)
  | issued (id : Nat) (image : ByteString) (inputs : List Tensor) (writes : List RowWrite)
  | continued (id : Nat) (inputs : List Tensor) (writes : List RowWrite)

def Record.id : Record → Nat
  | .reset id _ => id
  | .issued id _ _ _ => id
  | .continued id _ _ => id

/-- The state that a model's inputs are in before a full upload: nothing counts of what they hold. -/
def blank (engine : Engine) (image : ByteString) : Resident := ⟨image, (engine.inputs image).map fun _ => []⟩

def zeroed (engine : Engine) (image : ByteString) : Resident :=
  ⟨image, (engine.inputs image).map fun s => List.replicate s.bytes 0⟩

/-- What the history of successful requests, the latest first, makes of each state. -/
def ledger (engine : Engine) : List Record → Nat → Option Resident
  | [] => fun _ => none
  | .reset id image :: h => Function.update (ledger engine h) id (some (zeroed engine image))
  | .issued id image inputs ws :: h =>
    Function.update (ledger engine h) id (some ((blank engine image).run engine (inputs.map sent) ws))
  | .continued id inputs ws :: h =>
    Function.update (ledger engine h) id
      ((ledger engine h id).map fun r => r.run engine (inputs.map sent) ws)

variable {engine : Engine}

theorem ledger_cons_of_ne {r : Record} {h : List Record} {id : Nat} (hne : id ≠ r.id) :
    ledger engine (r :: h) id = ledger engine h id := by
  cases r with
  | reset id' image => exact Function.update_of_ne hne _ _
  | issued id' image inputs ws => exact Function.update_of_ne hne _ _
  | continued id' inputs ws => exact Function.update_of_ne hne _ _

@[simp] theorem length_applyWrite (outs cs : List ByteString) (w : RowWrite) :
    (applyWrite outs cs w).length = cs.length := by
  rw [applyWrite, List.length_modify]

end Onnxsim.Axcl.Ledger

namespace Onnxsim.Axcl.Transfers

open List Option Lib.Bytes Lib.Memories Lib.Results Wire.Messages
open Controls Models Running Ledger

variable {m : LoadedModel} {mem mem' : Memory Buffer Byte} {us : List (Option ByteString)} {i j : Nat}

/-- From input `i` on, what is sent has the size of its input. -/
def Sized (m : LoadedModel) (i : Nat) (us : List (Option ByteString)) : Prop :=
  i + us.length ≤ m.inSpecs.length ∧ ∀ k src, us[k]? = some (some src) → src.length = m.inSize (i + k)

variable {u : Option ByteString} {src : ByteString} {w : RowWrite}

theorem Sized.tail (h : Sized m i (u :: us)) : Sized m (i + 1) us := by
  have hlen := h.1
  rw [length_cons] at hlen
  refine ⟨by omega, fun k src hk => ?_⟩
  rw [h.2 (k + 1) src (by rwa [getElem?_cons_succ]), Nat.add_right_comm, Nat.add_assoc]

theorem Sized.head_lt (h : Sized m i (u :: us)) : i < m.inSpecs.length := by
  have hlen := h.1
  rw [length_cons] at hlen
  omega

theorem Sized.head (h : Sized m i (some src :: us)) : src.length = m.inSize i := h.2 0 src rfl

/-- What of `us`, which starts at input `i`, is sent for input `j`. -/
def sentAt (us : List (Option ByteString)) (i j : Nat) : Option ByteString := if i ≤ j then us[j - i]?.join else none

theorem sentAt_self : sentAt (u :: us) i i = u := by
  rw [sentAt, if_pos (Nat.le_refl i), Nat.sub_self, getElem?_cons_zero, join_some]

theorem sentAt_cons (hij : i ≠ j) : sentAt (u :: us) i j = sentAt us (i + 1) j := by
  rw [sentAt, sentAt]
  by_cases h : i ≤ j
  · have hj : j - i = (j - (i + 1)) + 1 := by omega
    rw [if_pos h, if_pos (by omega), hj, getElem?_cons_succ]
  · rw [if_neg h, if_neg (by omega)]

theorem read_writeInput (hi : i < m.inSpecs.length) (hj : j < m.inSpecs.length) (hsrc : src.length = m.inSize i) :
    read (write mem (m.inputPointer i) src) (m.inputPointer j) (m.inSize j) =
      if i = j then src else read mem (m.inputPointer j) (m.inSize j) := by
  by_cases hij : i = j
  · subst hij
    rw [if_pos rfl, read_write hsrc]
  · rw [if_neg hij, read_write_of_apart]
    rw [hsrc]
    exact apart_inputs (Ne.symm hij) hj hi

theorem writeInputs_reads {skip fails : Nat → Bool} {error : ByteString}
    (h : writeInputs m skip fails error i us mem = .ok mem') (hsize : Sized m i us) (hj : j < m.inSpecs.length) :
    read mem' (m.inputPointer j) (m.inSize j) =
      if skip j = true then read mem (m.inputPointer j) (m.inSize j)
      else (sentAt us i j).getD (read mem (m.inputPointer j) (m.inSize j)) := by
  induction us generalizing i mem with
  | nil =>
    cases h
    have hnone : sentAt [] i j = none := by simp [sentAt]
    rw [hnone, getD_none, ite_self]
  | cons u us ih =>
    cases u with
    | none =>
      rw [ih h hsize.tail]
      by_cases hij : i = j
      · subst hij
        have hout : sentAt us (i + 1) i = none := if_neg (by omega)
        rw [sentAt_self, hout]
      · rw [sentAt_cons hij]
    | some src =>
      rw [writeInputs] at h
      by_cases hskip : skip i = true
      · rw [if_pos hskip] at h
        rw [ih h hsize.tail]
        by_cases hij : i = j
        · subst hij
          rw [if_pos hskip, if_pos hskip]
        · rw [sentAt_cons hij]
      · rw [if_neg hskip] at h
        split at h
        · cases h
        · rw [ih h hsize.tail, read_writeInput hsize.head_lt hj hsize.head]
          by_cases hij : i = j
          · subst hij
            have hout : sentAt us (i + 1) i = none := if_neg (by omega)
            rw [if_neg hskip, if_neg hskip, sentAt_self, hout, if_pos rfl, getD_none, getD_some]
          · rw [if_neg hij, sentAt_cons hij]

theorem stage_reads (hsize : Sized m i us) (hj : j < m.inSpecs.length) :
    read (stage m i us mem) (m.inputPointer j) (m.inSize j) =
      if (m.arenaOffset j).isSome = true then (sentAt us i j).getD (read mem (m.inputPointer j) (m.inSize j))
      else read mem (m.inputPointer j) (m.inSize j) := by
  induction us generalizing i mem with
  | nil =>
    have hnone : sentAt [] i j = none := by simp [sentAt]
    rw [hnone, getD_none, ite_self]
    rfl
  | cons u us ih =>
    rw [stage, ih hsize.tail]
    have hread : read (if (m.arenaOffset i).isSome = true then write mem (m.inputPointer i) (u.getD []) else mem)
        (m.inputPointer j) (m.inSize j) =
          if i = j ∧ (m.arenaOffset j).isSome = true then u.getD (read mem (m.inputPointer j) (m.inSize j))
          else read mem (m.inputPointer j) (m.inSize j) := by
      by_cases harena : (m.arenaOffset i).isSome = true
      · rw [if_pos harena]
        cases u with
        | none =>
          have hempty : write mem (m.inputPointer i) ([] : ByteString) = mem := by
            funext b k
            simp [write]
          rw [getD_none, getD_none, hempty, ite_self]
        | some src =>
          rw [getD_some, getD_some, read_writeInput hsize.head_lt hj hsize.head]
          by_cases hij : i = j
          · subst hij
            rw [if_pos rfl, if_pos ⟨rfl, harena⟩]
          · rw [if_neg hij, if_neg fun h => hij h.1]
      · rw [if_neg harena, if_neg]
        rintro ⟨rfl, h⟩
        exact harena h
    rw [hread]
    by_cases hij : i = j
    · subst hij
      have hout : sentAt us (i + 1) i = none := if_neg (by omega)
      by_cases harena : (m.arenaOffset i).isSome = true
      · rw [if_pos harena, if_pos harena, if_pos ⟨rfl, harena⟩, sentAt_self, hout, getD_none]
      · rw [if_neg harena, if_neg harena, if_neg fun h => harena h.2]
    · have hno : ¬ (i = j ∧ (m.arenaOffset j).isSome = true) := fun h => hij h.1
      rw [if_neg hno, sentAt_cons hij]

theorem held_eq_replaced (hlen : us.length = m.inSpecs.length)
    (h : ∀ j < m.inSpecs.length, read mem' (m.inputPointer j) (m.inSize j) =
      (sentAt us 0 j).getD (read mem (m.inputPointer j) (m.inSize j))) : m.held mem' = replaced (m.held mem) us := by
  apply ext_getElem
  · simp [replaced, hlen]
  · intro k hk hk'
    have hkn : k < m.inSpecs.length := by simpa using hk
    have hku : k < us.length := by omega
    have hsent : sentAt us 0 k = us[k] := by
      rw [sentAt, if_pos (Nat.zero_le k), Nat.sub_zero, getElem?_eq_getElem hku, join_some]
    simp only [replaced, getElem_zipWith, getElem_held]
    rw [h k hkn, hsent]

theorem upload_held {faults : Faults} (hsize : Sized m 0 us) (hlen : us.length = m.inSpecs.length)
    (h : upload m faults us mem = .ok mem') : m.held mem' = replaced (m.held mem) us := by
  apply held_eq_replaced hlen
  intro j hj
  rw [upload] at h
  split at h
  next hpacked =>
    split at h
    · cases h
    · rw [writeInputs_reads h hsize hj]
      have hku : j < us.length := by omega
      have hsent : sentAt us 0 j = us[j] := by
        rw [sentAt, if_pos (Nat.zero_le j), Nat.sub_zero, getElem?_eq_getElem hku, join_some]
      cases hoff : m.arenaOffset j with
      | some off =>
        -- an input of the arena came with the staged copy, which holds what is sent for it
        have hpart : read (write mem ⟨.arena, 0⟩ (read (stage m 0 us fun _ _ => 0) ⟨.arena, 0⟩ m.arenaBytes))
            (m.inputPointer j) (m.inSize j) = read (stage m 0 us fun _ _ => 0) (m.inputPointer j) (m.inSize j) := by
          rw [inputPointer_of_arena hoff]
          exact read_copied rfl (arena_bounds hj hoff)
        have hall : us[j] ≠ none := by
          simp only [packed, Bool.and_eq_true, List.all_eq_true, mem_range] at hpacked
          have hj' := hpacked.2 j hj
          rw [hoff, getElem?_eq_getElem hku] at hj'
          simpa using hj'
        obtain ⟨src, hsrc⟩ := ne_none_iff_exists'.mp hall
        rw [isSome_some, if_pos rfl, hpart, stage_reads hsize hj, hoff, isSome_some, if_pos rfl, hsent, hsrc,
          getD_some, getD_some]
      | none =>
        have hapart : Apart (m.inputPointer j) (m.inSize j) ⟨.arena, 0⟩
            (read (stage m 0 us fun _ _ => 0) ⟨.arena, 0⟩ m.arenaBytes).length := by
          intro hbuf
          rw [inputPointer_of_own hoff] at hbuf
          cases hbuf
        rw [isSome_none, if_neg Bool.false_ne_true, read_write_of_apart hapart]
  · rw [writeInputs_reads h hsize hj, if_neg Bool.false_ne_true]

variable {outs : List ByteString} {n : Nat}

theorem writeOutputs_input : m.held (writeOutputs i outs mem) = m.held mem := by
  induction outs generalizing i mem with
  | nil => rfl
  | cons out outs ih =>
    rw [writeOutputs, ih]
    apply map_congr_left
    intro j _
    exact read_write_of_apart apart_output

theorem writeOutputs_before (hj : j < i) :
    read (writeOutputs i outs mem) (outputPointer j) n = read mem (outputPointer j) n := by
  induction outs generalizing i mem with
  | nil => rfl
  | cons out outs ih =>
    rw [writeOutputs, ih (by omega)]
    exact read_write_of_apart (apart_outputs (by omega))

theorem writeOutputs_output {k : Nat} (hk : k < outs.length) :
    read (writeOutputs i outs mem) (outputPointer (i + k)) outs[k].length = outs[k] := by
  induction outs generalizing i k mem with
  | nil => cases hk
  | cons out outs ih =>
    rw [writeOutputs]
    cases k with
    | zero =>
      rw [writeOutputs_before (by omega)]
      exact read_write rfl
    | succ k =>
      have hik : i + (k + 1) = i + 1 + k := by omega
      rw [getElem_cons_succ, hik]
      exact ih _

variable {faults : Faults} {ws : List RowWrite} {shadow shadow' : List ByteString} {k : Nat}

/-- A row that an output can fill inside an input. -/
structure Fits (m : LoadedModel) (w : RowWrite) : Prop where
  out : w.out < m.outSpecs.length
  into : w.into < m.inSpecs.length
  within : w.slot * m.outSize w.out + m.outSize w.out ≤ m.inSize w.into

def OutputsHeld (m : LoadedModel) (mem : Memory Buffer Byte) (outs : List ByteString) : Prop :=
  ∀ j < m.outSpecs.length, (outs.getD j []).length = m.outSize j ∧ read mem (outputPointer j) (m.outSize j) = outs.getD j []

theorem OutputsHeld.write_input (h : OutputsHeld m mem outs) {off : Nat} {row : ByteString} :
    OutputsHeld m (write mem ((m.inputPointer i).add off) row) outs := by
  intro j hj
  refine ⟨(h j hj).1, ?_⟩
  rw [← (h j hj).2]
  exact read_write_of_apart fun hbuf => absurd hbuf.symm inputPointer_ne_output

theorem held_writeRow (hw : Fits m w) (houts : OutputsHeld m mem outs) :
    m.held (write mem ((m.inputPointer w.into).add (w.slot * m.outSize w.out)) (outs.getD w.out [])) =
      applyWrite outs (m.held mem) w := by
  have hlen := (houts w.out hw.out).1
  apply ext_getElem
  · simp
  · intro j hj hj'
    have hjn : j < m.inSpecs.length := by simpa using hj
    simp only [applyWrite, getElem_modify, getElem_held, hlen]
    by_cases hij : w.into = j
    · subst hij
      rw [if_pos rfl, read_write_add]
      rw [hlen]
      exact hw.within
    · rw [if_neg hij, read_write_of_apart]
      intro hbuf
      have hap := apart_inputs hij hw.into hjn hbuf.symm
      simp only [Pointer.add, hlen]
      have hwithin := hw.within
      omega

theorem writeRows_device (hws : ∀ w ∈ ws, Fits m w) (houts : OutputsHeld m mem outs)
    (h : writeRows m true faults k ws mem shadow = .ok (mem', shadow')) :
    m.held mem' = ws.foldl (applyWrite outs) (m.held mem) ∧ OutputsHeld m mem' outs ∧ shadow' = shadow := by
  induction ws generalizing k mem with
  | nil =>
    cases h
    exact ⟨rfl, houts, rfl⟩
  | cons w ws ih =>
    have hw := hws w mem_cons_self
    rw [writeRows, if_pos rfl] at h
    split at h
    · cases h
    · rw [(houts w.out hw.out).2] at h
      have hrest := ih (fun w hw => hws w (mem_cons_of_mem _ hw)) houts.write_input h
      rw [held_writeRow hw houts] at hrest
      exact hrest

/-- The failures of row copies through the host, as those of copies on the device. -/
def throughHost (faults : Faults) : Faults := { faults with row := fun k => faults.rowDown k || faults.rowUp k }

/-- Through the host the device ends up with the same memory, if the host's copies are what the device holds. -/
theorem writeRows_host (hws : ∀ w ∈ ws, Fits m w) (houts : OutputsHeld m mem outs) (hshadow : shadow = m.held mem) :
    writeRows m false faults k ws mem shadow =
      (writeRows m true (throughHost faults) k ws mem []).map fun r => (r.1, m.held r.1) := by
  induction ws generalizing k mem shadow with
  | nil =>
    rw [hshadow]
    rfl
  | cons w ws ih =>
    have hw := hws w mem_cons_self
    have hlen := (houts w.out hw.out).1
    have hcopy : shadow.getD w.into [] = read mem (m.inputPointer w.into) (m.inSize w.into) := by
      have hlt : w.into < (m.held mem).length := by simpa using hw.into
      rw [hshadow, getD_eq_getElem?_getD, getElem?_eq_getElem hlt, getD_some, getElem_held]
    have hmem : write mem (m.inputPointer w.into)
        (overwrite (w.slot * m.outSize w.out) (outs.getD w.out []) (shadow.getD w.into [])) =
          write mem ((m.inputPointer w.into).add (w.slot * m.outSize w.out)) (outs.getD w.out []) := by
      rw [hcopy]
      exact write_overwrite_read (by rw [hlen]; exact hw.within)
    have hset : shadow.set w.into
        (overwrite (w.slot * m.outSize w.out) (outs.getD w.out []) (shadow.getD w.into [])) =
          m.held (write mem ((m.inputPointer w.into).add (w.slot * m.outSize w.out)) (outs.getD w.out [])) := by
      rw [held_writeRow hw houts, applyWrite, hlen, hshadow, modify_eq_set, getD_eq_getElem?_getD]
      rfl
    rw [writeRows, writeRows, if_pos rfl, if_neg Bool.false_ne_true, (houts w.out hw.out).2]
    dsimp only
    rw [hmem, hset]
    by_cases hf : faults.rowDown k = true ∨ faults.rowUp k = true
    · have hrow : (throughHost faults).row k = true := Bool.or_eq_true_iff.mpr hf
      rw [if_pos hf, if_pos hrow]
      rfl
    · have hrow : ¬ (throughHost faults).row k = true := fun h => hf (Bool.or_eq_true_iff.mp h)
      rw [if_neg hf, if_neg hrow]
      exact ih (fun w hw => hws w (mem_cons_of_mem _ hw)) houts.write_input rfl

/-- The response's tensors, filled with the outputs that are not left on the device. -/
def collect (omits : List Nat) (outs : List ByteString) : Nat → List Tensor → List Tensor
  | _, [] => []
  | i, t :: ts => (if i ∈ omits then t else fill t (outs.getD i [])) :: collect omits outs (i + 1) ts

theorem download_eq_ok {omits : List Nat} {ts ts' : List Tensor} (houts : OutputsHeld m mem outs)
    (hlen : i + ts.length ≤ m.outSpecs.length) (h : download m faults omits mem i ts = .ok ts') :
    ts' = collect omits outs i ts := by
  induction ts generalizing i ts' with
  | nil =>
    cases h
    rfl
  | cons t ts ih =>
    rw [length_cons] at hlen
    rw [download] at h
    rw [collect]
    by_cases hin : i ∈ omits
    · rw [if_pos hin] at h
      obtain ⟨rest, hrest, h⟩ := bind_eq_ok h
      cases h
      rw [if_pos hin, ih (by omega) hrest]
    · rw [if_neg hin] at h
      split at h
      · cases h
      · obtain ⟨rest, hrest, h⟩ := bind_eq_ok h
        cases h
        rw [if_neg hin, ih (by omega) hrest, (houts i (by omega)).2]

variable {resident : Bool} {specs : List IoSpec} {ts : List Tensor} {spec : IoSpec} {t : Tensor} {cs : List ByteString}

theorem checkInput_eq_ok (h : checkInput resident i spec t = .ok u) :
    u = none ∧ sourceBytes t = [] ∧ resident = true ∨ u = some (sourceBytes t) ∧ (sourceBytes t).length = spec.bytes := by
  rw [checkInput] at h
  split at h
  · cases h
  · split at h
    next hkeep =>
      cases h
      exact .inl ⟨rfl, hkeep.2.1, hkeep.1⟩
    · split at h
      · cases h
      next hlen =>
        cases h
        exact .inr ⟨rfl, (Classical.not_not.mp hlen).symm⟩

theorem checkInputs_cons (h : checkInputs resident i (spec :: specs) (t :: ts) = .ok us) :
    ∃ u us', us = u :: us' ∧ checkInput resident i spec t = .ok u ∧ checkInputs resident (i + 1) specs ts = .ok us' := by
  rw [checkInputs] at h
  obtain ⟨u, hu, h⟩ := bind_eq_ok h
  obtain ⟨us', hus, h⟩ := bind_eq_ok h
  cases h
  exact ⟨u, us', rfl, hu, hus⟩

theorem checkInputs_sized (hlen : ts.length = specs.length) (h : checkInputs resident i specs ts = .ok us) :
    us.length = specs.length ∧
      ∀ k src, us[k]? = some (some src) → src.length = (specs.map IoSpec.bytes).getD k 0 := by
  induction specs generalizing i ts us with
  | nil =>
    cases h
    exact ⟨rfl, nofun⟩
  | cons spec specs ih =>
    obtain ⟨t, ts, rfl⟩ := exists_cons_of_length_eq_add_one hlen
    obtain ⟨u, us, rfl, hu, hus⟩ := checkInputs_cons h
    obtain ⟨hl, hs⟩ := ih (by simpa using hlen) hus
    refine ⟨by rw [length_cons, length_cons, hl], fun k src hk => ?_⟩
    cases k with
    | zero =>
      cases hk
      cases checkInput_eq_ok hu with
      | inl hnone => cases hnone.1
      | inr hsome =>
        cases hsome.1
        exact hsome.2
    | succ k => exact hs k src hk

theorem replaced_sent (hlen : ts.length = specs.length) (hcs : cs.map List.length = specs.map IoSpec.bytes)
    (h : checkInputs resident i specs ts = .ok us) :
    replaced cs us = replaced cs (ts.map sent) := by
  induction specs generalizing i ts us cs with
  | nil =>
    have hc : cs = [] := map_eq_nil_iff.mp hcs
    rw [hc]
    rfl
  | cons spec specs ih =>
    obtain ⟨t, ts, rfl⟩ := exists_cons_of_length_eq_add_one hlen
    obtain ⟨u, us, rfl, hu, hus⟩ := checkInputs_cons h
    obtain ⟨c, cs, rfl⟩ := exists_cons_of_length_eq_add_one (by simpa using congrArg List.length hcs)
    rw [map_cons, map_cons, List.cons.injEq] at hcs
    have hrest := ih (by simpa using hlen) hcs.2 hus
    have hhead : u.getD c = (sent t).getD c := by
      rw [sent]
      cases checkInput_eq_ok hu with
      | inl hnone => rw [hnone.1, if_pos hnone.2.1]
      | inr hsome =>
        rw [hsome.1, getD_some]
        by_cases hnil : sourceBytes t = []
        · have hc : c = [] := length_eq_zero_iff.mp (by rw [hcs.1, ← hsome.2, hnil]; rfl)
          rw [if_pos hnil, getD_none, hc, hnil]
        · rw [if_neg hnil, getD_some]
    simp only [replaced, zipWith_cons_cons, map_cons, hhead] at hrest ⊢
    rw [hrest]

theorem replaced_blank {bs : List ByteString} (hlen : ts.length = specs.length) (hcs : cs.length = specs.length)
    (hbs : bs = specs.map fun _ => []) (hfull : none ∉ us) (h : checkInputs resident i specs ts = .ok us) :
    replaced cs us = replaced bs (ts.map sent) := by
  induction specs generalizing i ts us cs bs with
  | nil =>
    have hc : cs = [] := length_eq_zero_iff.mp hcs
    rw [hc, hbs]
    rfl
  | cons spec specs ih =>
    obtain ⟨t, ts, rfl⟩ := exists_cons_of_length_eq_add_one hlen
    obtain ⟨u, us, rfl, hu, hus⟩ := checkInputs_cons h
    obtain ⟨c, cs, rfl⟩ := exists_cons_of_length_eq_add_one hcs
    rw [mem_cons, not_or] at hfull
    have hrest := ih (by simpa using hlen) (by simpa using hcs) rfl hfull.2 hus
    have hhead : u.getD c = (sent t).getD [] := by
      rw [sent]
      cases checkInput_eq_ok hu with
      | inl hnone => exact absurd hnone.1.symm hfull.1
      | inr hsome =>
        rw [hsome.1, getD_some]
        by_cases hnil : sourceBytes t = []
        · rw [if_pos hnil, hnil, getD_none]
        · rw [if_neg hnil, getD_some]
    rw [hbs]
    simp only [replaced, zipWith_cons_cons, map_cons, hhead] at hrest ⊢
    rw [hrest]

theorem none_notMem_of_plain (hlen : ts.length = specs.length) (h : checkInputs false i specs ts = .ok us) : none ∉ us := by
  induction specs generalizing i ts us with
  | nil =>
    cases h
    exact not_mem_nil
  | cons spec specs ih =>
    obtain ⟨t, ts, rfl⟩ := exists_cons_of_length_eq_add_one hlen
    obtain ⟨u, us, rfl, hu, hus⟩ := checkInputs_cons h
    rw [mem_cons, not_or]
    refine ⟨?_, ih (by simpa using hlen) hus⟩
    cases checkInput_eq_ok hu with
    | inl hnone => cases hnone.2.2
    | inr hsome =>
      rw [hsome.1]
      exact nofun

theorem fits_of_checkWrite (h : checkWrite m w = .ok ()) : Fits m w := by
  rw [checkWrite] at h
  split at h
  next row into hrow hinto =>
    split at h
    · cases h
    next hfit =>
      simp only [not_or, Classical.not_not, not_le, ge_iff_le] at hfit
      have hout := (List.getElem?_eq_some_iff.mp hrow).1
      have hin := (List.getElem?_eq_some_iff.mp hinto).1
      have hr : m.outSize w.out = row.bytes := by
        rw [LoadedModel.outSize, getD_eq_getElem?_getD, getElem?_map, hrow]
        rfl
      have hi : m.inSize w.into = into.bytes := by
        rw [LoadedModel.inSize, LoadedModel.inSizes, getD_eq_getElem?_getD, getElem?_map, hinto]
        rfl
      refine ⟨hout, hin, ?_⟩
      rw [hr, hi, ← Nat.succ_mul]
      exact le_trans (Nat.mul_le_mul_right _ hfit.2.2.2) (Nat.div_mul_le_self _ _)
  · cases h

end Onnxsim.Axcl.Transfers
