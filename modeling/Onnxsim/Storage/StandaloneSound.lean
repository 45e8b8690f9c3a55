import Onnxsim.Storage.ReservedName
import Onnxsim.Storage.Standalone

namespace Onnxsim.Storage.StandaloneSound

open List Option Lib.Bytes Lib.OrderedMaps Pool Archive
open ArchiveTrip Safetensors Standalone Traversal

section

variable {S : Type} (fn : ByteString → TensorProto → S → TensorProto × S)

/-- The callback on the visited tensors one after the other. -/
def threaded : List Keyed → S → List TensorProto × S
  | [], s => ([], s)
  | p :: ks, s => ((fn p.1 p.2 s).1 :: (threaded ks (fn p.1 p.2 s).2).1, (threaded ks (fn p.1 p.2 s).2).2)

variable {fn}

theorem threaded_append (a b : List Keyed) (s : S) : threaded fn (a ++ b) s =
    ((threaded fn a s).1 ++ (threaded fn b (threaded fn a s).2).1, (threaded fn b (threaded fn a s).2).2) := by
  induction a generalizing s with
  | nil => rfl
  | cons p a ih => rw [cons_append, threaded, ih]; rfl

theorem forTensors_threaded (key : Nat → TensorProto → ByteString) (i : Nat) (ts : List TensorProto) (s : S) :
    forTensors fn key i ts s = threaded fn (keyed key i ts) s := by
  induction ts generalizing i s with
  | nil => rfl
  | cons t ts ih => rw [forTensors, ih]; rfl

theorem forTensor_threaded (key key' : TensorProto → ByteString) (t : Option TensorProto) (s : S) :
    (tensorsOf (keyedOption key' (forTensor fn key t s).1), (forTensor fn key t s).2) =
      threaded fn (keyedOption key t) s := by
  cases t <;> rfl

mutual

theorem forEachTensor_threaded : ∀ (g : GraphProto) (s : S),
    (tensorsOf (visited (forEachTensor fn g s).1), (forEachTensor fn g s).2) = threaded fn (visited g) s
  | .mk initializer node other, s => by
    have hnodes := forNodes_threaded 0 0 node (threaded fn (keyed initializerKey 0 initializer) s).2
    rw [forEachTensor, forTensors_threaded, visited, visited, threaded_append, ← hnodes, tensorsOf_append,
      tensorsOf_keyed]

theorem forNodes_threaded : ∀ (i j : Nat) (ns : List NodeProto) (s : S),
    (tensorsOf (visitedNodes j (forNodes fn i ns s).1), (forNodes fn i ns s).2) = threaded fn (visitedNodes i ns) s
  | _, _, [], s => by rw [forNodes, visitedNodes, visitedNodes]; rfl
  | i, j, .mk name attrs other :: rest, s => by
    have hattrs := forAttrs_threaded (nodePath i name) (nodePath j name) 0 0 attrs s
    have hrest := forNodes_threaded (i + 1) (j + 1) rest (forAttrs fn (nodePath i name) 0 attrs s).2
    rw [forNodes, visitedNodes, visitedNodes, threaded_append, ← hattrs, ← hrest, tensorsOf_append]

theorem forAttrs_threaded (path path' : ByteString) : ∀ (i j : Nat) (as : List AttributeProto) (s : S),
    (tensorsOf (visitedAttrs path' j (forAttrs fn path i as s).1), (forAttrs fn path i as s).2) =
      threaded fn (visitedAttrs path i as) s
  | _, _, [], s => by rw [forAttrs, visitedAttrs, visitedAttrs]; rfl
  | i, j, .mk t tensors g graphs other :: rest, s => by
    have ht := @forTensor_threaded S fn (tKey (attrPath path i)) (tKey (attrPath path' j)) t s
    rw [forAttrs, visitedAttrs, visitedAttrs, threaded_append, ← ht, threaded_append, ← forTensors_threaded,
      threaded_append, ← forGraph_threaded g, threaded_append, ← forGraphs_threaded graphs,
      ← forAttrs_threaded path path' (i + 1) (j + 1) rest]
    simp only [tensorsOf_append, tensorsOf_keyed]

theorem forGraph_threaded : ∀ (g : Option GraphProto) (s : S),
    (tensorsOf (visitedGraph (forGraph fn g s).1), (forGraph fn g s).2) = threaded fn (visitedGraph g) s
  | none, s => by rw [forGraph, visitedGraph]; rfl
  | some g, s => by rw [forGraph, visitedGraph, visitedGraph, forEachTensor_threaded g]

theorem forGraphs_threaded : ∀ (gs : List GraphProto) (s : S),
    (tensorsOf (visitedGraphs (forGraphs fn gs s).1), (forGraphs fn gs s).2) = threaded fn (visitedGraphs gs) s
  | [], s => by rw [forGraphs, visitedGraphs]; rfl
  | g :: gs, s => by
    rw [forGraphs, visitedGraphs, visitedGraphs, threaded_append, ← forEachTensor_threaded g,
      ← forGraphs_threaded gs, tensorsOf_append]

end

end

variable {bytes path o l : ByteString} {file : Option ByteString} {t : TensorProto}

section

variable {external : Option ExternalBytes} {mark : TensorProto → TensorProto} {ks : List Keyed}

def archiveStep (external : Option ExternalBytes) (pool : TensorPool) (p : Keyed) : TensorPool :=
  match moved external p with
  | none => pool
  | some bytes => pool.insert p.1 ⟨p.2.dataType, p.2.dims, bytes⟩

def archived (external : Option ExternalBytes) (pool : TensorPool) (ks : List Keyed) : TensorPool :=
  ks.foldl (archiveStep external) pool

def stripped (external : Option ExternalBytes) (mark : ByteString → TensorProto → TensorProto) (p : Keyed) :
    TensorProto :=
  match moved external p with
  | none => p.2
  | some _ => mark p.1 { p.2 with rawData := none }

theorem moved_of_take {external' : Option ExternalBytes} {p q : Keyed}
    (h : take external p.1 p.2 = some (bytes, external')) (hne : q.1 ≠ p.1) : moved external' q = moved external q := by
  cases external with
  | none =>
    obtain ⟨b, -, he⟩ := map_eq_some_iff.mp h
    cases he
    rfl
  | some held =>
    obtain ⟨b, -, he⟩ := map_eq_some_iff.mp h
    cases he
    rw [moved, moved, Standalone.take, Standalone.take, SortedMap.find?_erase, if_neg hne]
    cases held.find? q.1 <;> rfl

theorem threaded_adopt (mark : TensorProto → TensorProto) (hnodup : (ks.map Prod.fst).Nodup) (s : Adoption) :
    (threaded (adoptTensor mark) ks s).1 = ks.map (stripped s.external fun _ => mark) ∧
    (threaded (adoptTensor mark) ks s).2.pool = archived s.external s.pool ks ∧
    (threaded (adoptTensor mark) ks s).2.adopted =
      s.adopted ++ ks.map fun p => (moved s.external p).map fun _ => p.1 := by
  induction ks generalizing s with
  | nil => exact ⟨rfl, rfl, (append_nil _).symm⟩
  | cons p ks ih =>
    obtain ⟨hp, hks⟩ := nodup_cons.mp hnodup
    cases htake : take s.external p.1 p.2 with
    | none =>
      have hmoved : moved s.external p = none := by rw [moved, htake]; rfl
      obtain ⟨htensors, hpool, hadopted⟩ := ih hks { s with adopted := s.adopted ++ [none] }
      simp only [threaded, adoptTensor, htake]
      rw [htensors, hpool, hadopted]
      simp [archived, archiveStep, stripped, hmoved]
    | some r =>
      have hmoved : moved s.external p = some r.1 := by rw [moved, htake]; rfl
      have hsame : ∀ q ∈ ks, moved r.2 q = moved s.external q := fun q hq =>
        moved_of_take htake fun he => hp (he ▸ List.mem_map_of_mem hq)
      have hstripped : ∀ q ∈ ks, stripped r.2 (fun _ => mark) q = stripped s.external (fun _ => mark) q := by
        intro q hq
        rw [stripped, stripped, hsame q hq]
      have hnames : ∀ q ∈ ks, ((moved r.2 q).map fun _ => q.1) = (moved s.external q).map fun _ => q.1 := by
        intro q hq
        rw [hsame q hq]
      have hstep : ∀ pool, ∀ q ∈ ks, archiveStep r.2 pool q = archiveStep s.external pool q := by
        intro pool q hq
        rw [archiveStep, archiveStep, hsame q hq]
      obtain ⟨htensors, hpool, hadopted⟩ := ih hks
        ⟨s.pool.insert p.1 ⟨p.2.dataType, p.2.dims, r.1⟩, r.2, s.adopted ++ [some p.1]⟩
      simp only [threaded, adoptTensor, htake]
      rw [htensors, hpool, hadopted, map_congr_left hstripped, archived, foldl_ext _ _ _ hstep,
        map_congr_left hnames]
      simp [archived, archiveStep, stripped, hmoved]

theorem threaded_mark {f : ByteString → TensorProto → TensorProto} {ps : List Keyed}
    (h : tensorsOf ks = ps.map (stripped external fun _ => mark)) :
    (threaded (markTensor f) ks (ps.map fun p => (moved external p).map fun _ => p.1)).1 =
      ps.map (stripped external fun name t => f name (mark t)) := by
  induction ps generalizing ks with
  | nil =>
    rw [map_eq_nil_iff.mp h]
    rfl
  | cons p ps ih =>
    cases ks with
    | nil => cases h
    | cons q ks =>
      obtain ⟨hq, hks⟩ := List.cons.inj h
      rw [threaded, map_cons, map_cons]
      have hrest := ih hks
      simp only [markTensor, head?_cons, tail_cons] at hrest ⊢
      rw [hrest, stripped]
      cases hm : moved external p with
      | none =>
        simp only [stripped, hm] at hq
        simp [hq]
      | some bytes =>
        simp only [stripped, hm] at hq
        simp [hq]

theorem tensors_forEach {S : Type} (fn : ByteString → TensorProto → S → TensorProto × S) (g : GraphProto) (s : S) :
    tensorsOf (visited (forEachTensor fn g s).1) = (threaded fn (visited g) s).1 ∧
      (forEachTensor fn g s).2 = (threaded fn (visited g) s).2 :=
  Prod.ext_iff.mp (forEachTensor_threaded g s)

theorem not_mem_archived {k : ByteString} (h : ∀ p ∈ ks, p.1 ≠ k) (pool : TensorPool) :
    (archived external pool ks).find? k = pool.find? k := by
  induction ks generalizing pool with
  | nil => rfl
  | cons p ks ih =>
    refine (ih (fun q hq => h q (mem_cons_of_mem _ hq)) _).trans ?_
    rw [archiveStep]
    cases moved external p with
    | none => rfl
    | some bytes => rw [SortedMap.find?_insert, if_neg (h p mem_cons_self).symm]

theorem mem_archived (hnodup : (ks.map Prod.fst).Nodup) {p : Keyed} (hp : p ∈ ks) (hm : moved external p = some bytes)
    (pool : TensorPool) :
    (archived external pool ks).find? p.1 = some ⟨p.2.dataType, p.2.dims, bytes⟩ := by
  induction ks generalizing pool with
  | nil => cases hp
  | cons q ks ih =>
    obtain ⟨hq, hks⟩ := nodup_cons.mp hnodup
    obtain rfl | hp := mem_cons.mp hp
    · refine (not_mem_archived (fun r hr (he : r.1 = p.1) => hq (he ▸ List.mem_map_of_mem hr)) _).trans ?_
      rw [archiveStep, hm, SortedMap.find?_insert, if_pos rfl]
    · exact ih hks hp _

variable {pool : TensorPool} {k : ByteString} {e e' : Entry} {l₁ l₂ : List (ByteString × Entry)}

def dataOf (l : List (ByteString × Entry)) : ByteString := l.flatMap fun p => p.2.data

def prefixOf (pool : TensorPool) : ByteString := leBytes 8 (headerText pool).length ++ headerText pool

theorem fileBytes_eq (pool : TensorPool) : fileBytes pool = prefixOf pool ++ dataOf pool.entries := rfl

theorem headerPrefixSize_fileBytes {disk : Disk} (hreads : disk.reads = true)
    (hlen : (fileBytes pool).length < maxFileSize) :
    headerPrefixSize disk (fileBytes pool) path = .ok (prefixOf pool).length := by
  have hfront : (prefixOf pool).length = 8 + (headerText pool).length := by
    rw [prefixOf, length_append, leBytes_length]
  have hfile : (fileBytes pool).length = (prefixOf pool).length + (dataOf pool.entries).length := by
    rw [fileBytes_eq, length_append]
  have htake : (fileBytes pool).take 8 = leBytes 8 (headerText pool).length := by
    rw [fileBytes_eq, prefixOf, append_assoc, take_left' (leBytes_length 8 _)]
  rw [maxFileSize] at hlen
  rw [headerPrefixSize, hreads, htake, ofLE_leBytes_of_lt (by omega)]
  simp only [Bool.not_true, Bool.false_eq_true, if_false]
  rw [if_neg (by omega), Nat.mod_eq_of_lt (by omega), hfront]

theorem offsetsFrom_append {o : Nat} (h : o + (dataOf l₁).length < 2 ^ 64) :
    offsetsFrom o (l₁ ++ l₂) = offsetsFrom o l₁ ++ offsetsFrom (o + (dataOf l₁).length) l₂ := by
  induction l₁ generalizing o with
  | nil => rfl
  | cons p l₁ ih =>
    rw [dataOf, flatMap_cons, length_append, ← dataOf, ← Nat.add_assoc] at h ⊢
    rw [cons_append, SafetensorsRoundTrip.offsetsFrom_cons (by omega), SafetensorsRoundTrip.offsetsFrom_cons (by omega), ih h]
    rfl

theorem names_offsetsFrom (o : Nat) (l : List (ByteString × Entry)) :
    (offsetsFrom o l).map (fun t => t.1) = l.map Prod.fst := by
  induction l generalizing o with
  | nil => rfl
  | cons p l ih => rw [offsetsFrom, map_cons, ih]; rfl

theorem find?_offsetsOf (hsplit : pool.entries = l₁ ++ (k, e) :: l₂) (hlen : (dataOf pool.entries).length < 2 ^ 64) :
    (offsetsOf pool).find? k = some ((dataOf l₁).length, (dataOf l₁).length + e.data.length) := by
  have hdata : (dataOf pool.entries).length = (dataOf l₁).length + (e.data.length + (dataOf l₂).length) := by
    simp only [hsplit, dataOf, flatMap_append, flatMap_cons, length_append]
  rw [offsetsOf, SortedMap.find?_ofList_iff]
  · rw [hsplit, offsetsFrom_append (by omega), SafetensorsRoundTrip.offsetsFrom_cons (by simp only; omega)]
    simp
  · rw [List.map_map]
    exact (names_offsetsFrom 0 pool.entries).symm ▸ pool.keys_nodup

theorem slice_found (hlen : (fileBytes pool).length < maxFileSize) (h : pool.find? k = some e) :
    ∃ b, (offsetsOf pool).find? k = some (b, b + e.data.length) ∧
      (prefixOf pool).length + b + e.data.length ≤ (fileBytes pool).length ∧
      ((fileBytes pool).drop ((prefixOf pool).length + b)).take e.data.length = e.data := by
  obtain ⟨l₁, l₂, hsplit⟩ := append_of_mem ((SortedMap.find?_eq_some_iff pool k e).mp h)
  have hfile : fileBytes pool = prefixOf pool ++ (dataOf l₁ ++ (e.data ++ dataOf l₂)) := by
    rw [fileBytes_eq, hsplit, dataOf, flatMap_append, flatMap_cons]
    rfl
  have hfiles : (fileBytes pool).length = (prefixOf pool).length + (dataOf pool.entries).length := by
    rw [fileBytes_eq, length_append]
  rw [maxFileSize] at hlen
  refine ⟨(dataOf l₁).length, find?_offsetsOf hsplit (by omega), ?_, ?_⟩
  · rw [hfile]
    simp only [length_append]
    omega
  · rw [hfile, ← append_assoc, drop_left' (by rw [length_append]), take_left' rfl]

theorem exists_insertList (k : ByteString) (l : List (ByteString × Entry)) :
    ∃ l₁ l₂, ∀ e, insertList k e l = l₁ ++ (k, e) :: l₂ := by
  induction l with
  | nil => exact ⟨[], [], fun e => rfl⟩
  | cons p l ih =>
    obtain ⟨name, entry⟩ := p
    by_cases hlt : k < name
    · exact ⟨[], (name, entry) :: l, fun e => if_pos hlt⟩
    by_cases heq : k = name
    · exact ⟨[], l, fun e => (if_neg hlt).trans (if_pos heq)⟩
    obtain ⟨l₁, l₂, hsplit⟩ := ih
    refine ⟨(name, entry) :: l₁, l₂, fun e => ?_⟩
    rw [insertList, if_neg hlt, if_neg heq, hsplit]
    rfl

theorem map_offsetsFrom {β : Type} {g : ByteString × Entry × Nat × Nat → β} (hdata : e'.data.length = e.data.length)
    (hg : ∀ r, g (k, e', r) = g (k, e, r)) (o : Nat) :
    (offsetsFrom o (l₁ ++ (k, e') :: l₂)).map g = (offsetsFrom o (l₁ ++ (k, e) :: l₂)).map g := by
  induction l₁ generalizing o with
  | nil => rw [nil_append, nil_append, offsetsFrom, offsetsFrom, map_cons, map_cons, hdata, hg]
  | cons p l₁ ih =>
    rw [cons_append, cons_append, offsetsFrom, offsetsFrom, map_cons, map_cons, ih]

theorem layout_insert (hdtype : e'.dtype = e.dtype) (hshape : e'.shape = e.shape)
    (hdata : e'.data.length = e.data.length) :
    offsetsOf (pool.insert k e') = offsetsOf (pool.insert k e) ∧
      prefixOf (pool.insert k e') = prefixOf (pool.insert k e) ∧
      (fileBytes (pool.insert k e')).length = (fileBytes (pool.insert k e)).length := by
  obtain ⟨l₁, l₂, hsplit⟩ := exists_insertList k pool.entries
  have hentries : ∀ e, (pool.insert k e).entries = l₁ ++ (k, e) :: l₂ := hsplit
  have hheader : headerText (pool.insert k e') = headerText (pool.insert k e) := by
    rw [headerText, headerText, hentries, hentries, map_offsetsFrom hdata]
    intro r
    simp only [descriptor, hdtype, hshape]
  have hfront : prefixOf (pool.insert k e') = prefixOf (pool.insert k e) := by rw [prefixOf, prefixOf, hheader]
  refine ⟨?_, hfront, ?_⟩
  · rw [offsetsOf, offsetsOf, hentries, hentries, map_offsetsFrom hdata]
    exact fun r => rfl
  · simp only [fileBytes_eq, hfront, hentries, dataOf, flatMap_append, flatMap_cons, length_append,
      hdata]

theorem overwrite_insert {w : ByteString} (hw : w.length ≤ e.data.length)
    (hlen : (fileBytes (pool.insert k e)).length < maxFileSize) :
    overwrite (fileBytes (pool.insert k e))
      ((prefixOf (pool.insert k e)).length + (range (offsetsOf (pool.insert k e)) k).1) w =
        fileBytes (pool.insert k { e with data := w ++ e.data.drop w.length }) := by
  obtain ⟨l₁, l₂, hsplit⟩ := exists_insertList k pool.entries
  have hentries : ∀ e, (pool.insert k e).entries = l₁ ++ (k, e) :: l₂ := hsplit
  have hdata : ∀ e, dataOf (pool.insert k e).entries = dataOf l₁ ++ (e.data ++ dataOf l₂) := by
    intro e
    rw [hentries, dataOf, flatMap_append, flatMap_cons]
    rfl
  have hsize : (fileBytes (pool.insert k e)).length =
      (prefixOf (pool.insert k e)).length + (dataOf (pool.insert k e).entries).length := by
    rw [fileBytes_eq, length_append]
  rw [maxFileSize] at hlen
  have hfront := (@layout_insert pool k e { e with data := w ++ e.data.drop w.length }
    rfl rfl (by simp only [length_append, List.length_drop]; omega)).2.1
  rw [Standalone.range, find?_offsetsOf (hentries e) (by omega), getD_some, fileBytes_eq, fileBytes_eq, hfront, hdata, hdata,
    overwrite, ← append_assoc, ← length_append, take_left' rfl, ← List.drop_drop, drop_left' rfl,
    drop_append_of_le_length hw]
  simp only [append_assoc]

end

theorem digitsValue_fixedWidthDecimal (v : Nat) : digitsValue (fixedWidthDecimal v) = v := by
  have hzeros : ∀ n, (List.replicate n (48 : Byte)).foldl (fun acc c => acc * 10 + (c.val - 48)) 0 = 0 := by
    intro n
    induction n with
    | zero => rfl
    | succ n ih => exact ih
  rw [digitsValue, fixedWidthDecimal, foldl_append, hzeros]
  exact digitsValue_decimal v

theorem length_fixedWidthDecimal {v : Nat} (h : v < 2 ^ 64) : (fixedWidthDecimal v).length = kOffsetFieldWidth := by
  have hdecimal : (decimal v).length ≤ kOffsetFieldWidth := by
    by_cases hzero : v = 0
    · rw [hzero]
      decide
    · rw [decimal, if_neg hzero, length_map, length_reverse]
      exact (Nat.digits_length_le_iff (by omega) v).mpr (by rw [kOffsetFieldWidth]; omega)
  rw [fixedWidthDecimal, length_append, length_replicate]
  omega

theorem patchOffsets_setExternal (offsets : Offsets) (start : Nat) (name path o l : ByteString) (t : TensorProto) :
    patchOffsets offsets start name (setExternal path o l t) =
      setExternal path (fixedWidthDecimal ((start + (range offsets name).1) % 2 ^ 64))
        (fixedWidthDecimal (((range offsets name).2 + 2 ^ 64 - (range offsets name).1) % 2 ^ 64)) t := by
  have h₁ : ascii "location" ≠ ascii "offset" := by decide
  have h₂ : ascii "location" ≠ ascii "length" := by decide
  have h₃ : ascii "length" ≠ ascii "offset" := by decide
  simp [patchOffsets, setExternal, h₁, h₂, h₃]

theorem refers_setExternal :
    Refers path file bytes (setExternal path o l t) ↔ digitsValue o + digitsValue l ≤ (file.getD []).length ∧
      ((file.getD []).drop (digitsValue o)).take (digitsValue l) = bytes := by
  have h₁ : ascii "location" ≠ ascii "offset" := by decide
  have h₂ : ascii "location" ≠ ascii "length" := by decide
  have h₃ : ascii "offset" ≠ ascii "length" := by decide
  have hlocation : record (setExternal path o l t) "location" = some path := by
    simp [record, setExternal]
  have hreferenced : referenced file (setExternal path o l t) =
      if digitsValue o + digitsValue l ≤ (file.getD []).length then
        some (((file.getD []).drop (digitsValue o)).take (digitsValue l)) else none := by
    simp [referenced, record, setExternal, h₁, h₂, h₃]
  rw [Refers, hlocation, hreferenced]
  by_cases hle : digitsValue o + digitsValue l ≤ (file.getD []).length
  · rw [if_pos hle]
    simp [setExternal, hle]
  · rw [if_neg hle]
    simp [hle]

variable {external : Option ExternalBytes} {m m' : ModelProto} {mark : ByteString → TensorProto → TensorProto}
  {R : ByteString → TensorProto → Prop}

theorem leaves_iff (h : tensorsOf (visited m'.graph) = (visited m.graph).map (stripped external mark)) :
    Leaves R external m m' ↔ ∀ p ∈ visited m.graph, ∀ bytes, moved external p = some bytes →
      R bytes (mark p.1 { p.2 with rawData := none }) := by
  rw [Leaves, h, forall₂_map_right_iff, forall₂_same]
  refine forall₂_congr fun p _ => ?_
  cases hm : moved external p with
  | none => simp [stripped, hm]
  | some bytes => simp [stripped, hm]

def OnlyEmpty (external : Option ExternalBytes) (m : ModelProto) : Prop :=
  ∀ p ∈ visited m.graph, ∀ bytes, moved external p = some bytes → bytes = []

theorem holds_setExternal :
    Holds path file bytes (setExternal path o l t) ↔ Refers path file bytes (setExternal path o l t) := by
  rw [Holds]
  simp [setExternal]

end Onnxsim.Storage.StandaloneSound
