import ProblemSolving.Proofs.Json.RoundTrip
import ProblemSolving.Search.TraceText

/-!
# The canonical text of a trace tells it apart

* `Readable.ofNat`, `Readable.ofDouble`, `Readable.ofOption`, `Readable.ofList` : documents of data
  have texts.
* `ofNat_injective`, `ofDouble_injective`, `ofList_injective` : and different data have different
  documents; of doubles, the finite ones.
* `ExpandEvent.toJson_injective`, `Trace.toJson_injective` : so have different traces.
* `Trace.parse?_text` : the text of a trace is read back as its document.
* `canonicalText_identifies` : traces with the same bytes are the same.
-/

namespace ProblemSolving

namespace Json

/-! ## Documents of data -/

section
variable {α : Type} {toJson : α → Json}

theorem Readable.ofNat (n : Nat) : (Json.ofNat n).Readable := by
  apply Readable.number
  rw [literal?_ofNat]
  rfl

/-- A double that is not finite has no number, but it has a document. -/
theorem Readable.ofDouble (x : Double) : (Json.ofDouble x).Readable := by
  unfold Json.ofDouble
  split
  next hfinite =>
    obtain ⟨l, hl, -⟩ := Double.literal?_text hfinite
    exact .number _ (Option.isSome_of_eq_some hl)
  next => exact .null

theorem Readable.ofOption (h : ∀ a, (toJson a).Readable) (value : Option α) :
    (Json.ofOption toJson value).Readable := by
  cases value with
  | none => exact .null
  | some a => exact h a

theorem Readable.ofList (h : ∀ a, (toJson a).Readable) (items : List α) :
    (Json.ofList toJson items).Readable := by
  apply Readable.array
  intro item hitem
  obtain ⟨a, -, rfl⟩ := List.mem_map.1 hitem
  exact h a

theorem ofNat_injective : Function.Injective Json.ofNat := by
  intro n m h
  have htext : toString n = toString m := Json.number.inj h
  have hread := literal?_ofNat n
  rw [htext, literal?_ofNat m] at hread
  cases hread
  rfl

theorem ofDouble_injective {x y : Double} (hx : x.isFinite = true) (hy : y.isFinite = true)
    (h : ofDouble x = ofDouble y) : x = y := by
  unfold ofDouble at h
  rw [if_pos hx, if_pos hy] at h
  exact Double.text_injective hx hy (Json.number.inj h)

theorem ofList_injective {items items' : List α}
    (hinjective : ∀ a ∈ items, ∀ b ∈ items', toJson a = toJson b → a = b)
    (h : ofList toJson items = ofList toJson items') : items = items' := by
  have hmap : items.map toJson = items'.map toJson := Json.array.inj h
  clear h
  induction items generalizing items' with
  | nil => exact (List.map_eq_nil_iff.1 hmap.symm).symm
  | cons a items ih =>
    obtain ⟨b, later, rfl, hb, hlater⟩ := List.map_eq_cons_iff.1 hmap.symm
    obtain rfl : a = b := hinjective a (List.mem_cons_self ..) b (List.mem_cons_self ..) hb.symm
    congr 1
    refine ih (fun c hc d hd => ?_) hlater.symm
    exact hinjective c (List.mem_cons_of_mem _ hc) d (List.mem_cons_of_mem _ hd)

theorem ofOption_string_injective : Function.Injective (ofOption .string) := by
  intro value value' h
  cases value with
  | none =>
    cases value' with
    | none => rfl
    | some text => cases h
  | some text =>
    cases value' with
    | none => cases h
    | some text' => exact congrArg some (Json.string.inj h)

end

end Json

/-! ## Traces -/

theorem ExpandEvent.readable_toJson (e : ExpandEvent Double) : e.toJson.Readable := by
  refine .object _ (List.forall_mem_cons.2 ⟨.ofList .ofNat _, ?_⟩)
  refine List.forall_mem_cons.2 ⟨.ofNat _, List.forall_mem_cons.2 ⟨.ofDouble _, ?_⟩⟩
  exact List.forall_mem_cons.2 ⟨.ofNat _, List.forall_mem_cons.2 ⟨.ofNat _, by simp⟩⟩

theorem ExpandEvent.toJson_injective {e e' : ExpandEvent Double} (hf : e.f.isFinite = true)
    (hf' : e'.f.isFinite = true) (h : e.toJson = e'.toJson) : e = e' := by
  obtain ⟨order, node, depth, f, children⟩ := e
  obtain ⟨order', node', depth', f', children'⟩ := e'
  simp only [ExpandEvent.toJson, Json.object.injEq, List.cons.injEq, Prod.mk.injEq, true_and,
    and_true] at h
  obtain ⟨hchildren, hdepth, hvalue, hnode, horder⟩ := h
  obtain rfl := Json.ofList_injective (fun _ _ _ _ => (Json.ofNat_injective ·)) hchildren
  obtain rfl := Json.ofNat_injective hdepth
  obtain rfl := Json.ofDouble_injective hf hf' hvalue
  obtain rfl := Json.ofNat_injective hnode
  obtain rfl := Json.ofNat_injective horder
  rfl

namespace Trace

/-- Every node of the trace was chosen by a finite value. -/
def FiniteValues (t : Trace Double) : Prop := ∀ e ∈ t.events, e.f.isFinite = true

theorem readable_toJson (t : Trace Double) : t.toJson.Readable := by
  refine .object _ (List.forall_mem_cons.2 ⟨.string _, ?_⟩)
  refine List.forall_mem_cons.2 ⟨.ofList ExpandEvent.readable_toJson _, ?_⟩
  refine List.forall_mem_cons.2 ⟨.string _, List.forall_mem_cons.2 ⟨.ofOption .string _, ?_⟩⟩
  simp

theorem toJson_injective {t t' : Trace Double} (h : t.FiniteValues) (h' : t'.FiniteValues)
    (hdocument : t.toJson = t'.toJson) : t = t' := by
  obtain ⟨algorithm, events, termination⟩ := t
  obtain ⟨algorithm', events', termination'⟩ := t'
  simp only [Trace.toJson, Json.object.injEq, List.cons.injEq, Prod.mk.injEq, true_and,
    and_true, Json.string.injEq] at hdocument
  obtain ⟨rfl, hevents, htermination⟩ := hdocument
  obtain rfl := Json.ofList_injective
    (fun e he e' he' => ExpandEvent.toJson_injective (h e he) (h' e' he')) hevents
  obtain rfl := Json.ofOption_string_injective htermination
  rfl

/-- The text of a trace is read back as its document. -/
theorem parse?_text (t : Trace Double) : Json.parse? t.text = some t.toJson :=
  Json.parse?_compact t.readable_toJson

end Trace

/-- **The canonical text tells traces apart.** Two traces whose nodes were chosen by finite values
have the same bytes exactly when they are the same: by the same algorithm, with the same events and
the same termination. -/
theorem canonicalText_identifies {t t' : Trace Double} (h : t.FiniteValues)
    (h' : t'.FiniteValues) : t.text.toUTF8 = t'.text.toUTF8 ↔ t = t' := by
  constructor
  case mpr =>
    rintro rfl
    rfl
  case mp =>
    intro hbytes
    have htext : t.text = t'.text := String.toByteArray_inj.1 hbytes
    have hdocument : t.toJson = t'.toJson :=
      Json.compact_injective t.readable_toJson t'.readable_toJson htext
    exact Trace.toJson_injective h h' hdocument

/-- A trace of one expansion, with a name that needs escapes. -/
def oneExpansion (f : Double) (label : Option String) : Trace Double :=
  ⟨"\"best\\first\"\n", [⟨0, 0, 0, f, [1, 12]⟩], label⟩

theorem finiteValues_oneExpansion {f : Double} (hf : f.isFinite = true) (label : Option String) :
    (oneExpansion f label).FiniteValues :=
  List.forall_mem_singleton.2 hf

/-- The sign of a zero tells traces apart, and so does a label that is missing. -/
theorem oneExpansion_apart :
    (oneExpansion .zero none).text.toUTF8 ≠ (oneExpansion (.neg .zero) none).text.toUTF8 ∧
      (oneExpansion .zero none).text.toUTF8 ≠ (oneExpansion .zero (some "null")).text.toUTF8 := by
  have hzero (label : Option String) : (oneExpansion .zero label).FiniteValues :=
    finiteValues_oneExpansion (by decide) label
  have hneg : (oneExpansion (.neg .zero) none).FiniteValues :=
    finiteValues_oneExpansion (by decide) none
  constructor
  case left => exact mt (canonicalText_identifies (hzero none) hneg).1 (by decide)
  case right => exact mt (canonicalText_identifies (hzero none) (hzero _)).1 (by decide)

end ProblemSolving
