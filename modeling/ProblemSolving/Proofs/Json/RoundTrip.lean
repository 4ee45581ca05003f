import Mathlib.Data.List.TakeWhile
import ProblemSolving.Proofs.Json.Numbers

/-!
# Compact documents are read back

* `stringUnits?_quoted`, `joinSurrogates?_map` : a quoted text is read as the text.
* `tokens?_punctuation`, `tokens?_quote`, `tokens?_atom` : the tokens of a text, from its first one on.
* `Readable` : a document that has a text.
* `readFrom_compact` : the text of a document is read as the document, wherever one may stand.
* `parse?_compact` : so reading a compact document gives the document.
* `compact_injective` : and different documents have different texts.
-/

namespace ProblemSolving

namespace Json

/-! ## Quoted texts -/

section
variable {cs rest : List Char} {units : List Nat} {h : rest.length < cs.length}

theorem stringUnits?_letter {letter c : Char} (hletter : letter ≠ 'u')
    (hc : shortEscape? letter = some c) (hread : stringUnits? cs = some (units, ⟨rest, h⟩)) :
    ∃ h', stringUnits? ('\\' :: letter :: cs) = some (c.toNat :: units, ⟨rest, h'⟩) := by
  have hlonger : rest.length < cs.length + 1 + 1 := by omega
  refine ⟨hlonger, ?_⟩
  rw [stringUnits?]
  · simp [hc, hread]
  · rintro a b c d rest' rfl
    contradiction

theorem stringUnits?_code {a b c d : Char} {unit : Nat} (hunit : hexUnit? a b c d = some unit)
    (hread : stringUnits? cs = some (units, ⟨rest, h⟩)) :
    ∃ h', stringUnits? ('\\' :: 'u' :: a :: b :: c :: d :: cs) =
      some (unit :: units, ⟨rest, h'⟩) := by
  have hlonger : rest.length < cs.length + 1 + 1 + 1 + 1 + 1 + 1 := by omega
  refine ⟨hlonger, ?_⟩
  rw [stringUnits?]
  simp [hunit, hread]

theorem stringUnits?_plain {c : Char} (hquote : c ≠ '"') (hslash : c ≠ '\\')
    (hcontrol : ¬ c.toNat < 0x20) (hread : stringUnits? cs = some (units, ⟨rest, h⟩)) :
    ∃ h', stringUnits? (c :: cs) = some (c.toNat :: units, ⟨rest, h'⟩) := by
  have hlonger : rest.length < cs.length + 1 := by omega
  refine ⟨hlonger, ?_⟩
  rw [stringUnits?]
  · simp [hslash, hcontrol, hread]
  · exact hquote
  · exact fun _ _ _ _ _ hc _ => hslash hc
  · exact fun _ _ hc _ => hslash hc

theorem shortEscape?_of_short? {c letter : Char} (hc : Quoting.json.short? c = some letter) :
    letter ≠ 'u' ∧ shortEscape? letter = some c := by
  unfold Quoting.json at hc
  dsimp only at hc
  iterate 7
    split at hc
    next hshort =>
      cases hc
      rw [hshort]
      exact ⟨by decide, by decide⟩
  cases hc

theorem code_eq {n : Nat} (hn : n < 0x20) :
    (Quoting.json.code n).toList =
        ['\\', 'u', '0', '0', Nat.digitChar (n / 16), Nat.digitChar (n % 16)] ∧
      hexUnit? '0' '0' (Nat.digitChar (n / 16)) (Nat.digitChar (n % 16)) = some n := by
  have hall : ∀ n < 0x20, List.replicate (4 - (Nat.toDigits 16 n).length) '0' ++ Nat.toDigits 16 n =
        ['0', '0', Nat.digitChar (n / 16), Nat.digitChar (n % 16)] ∧
      hexUnit? '0' '0' (Nat.digitChar (n / 16)) (Nat.digitChar (n % 16)) = some n := by decide
  obtain ⟨hdigits, hunit⟩ := hall n hn
  refine ⟨?_, hunit⟩
  have htext : (Quoting.json.code n).toList =
      '\\' :: 'u' :: (List.replicate (4 - (Nat.toDigits 16 n).length) '0' ++ Nat.toDigits 16 n) := by
    show ("\\u" ++ "".pushn '0' (4 - (Quoting.hex n).length) ++ Quoting.hex n).toList = _
    rw [String.toList_append, String.toList_append, toList_pushn, Quoting.hex]
    simp
  rw [htext, hdigits]

theorem stringUnits?_escape (c : Char) (hread : stringUnits? cs = some (units, ⟨rest, h⟩)) :
    ∃ h', stringUnits? ((Quoting.json.escape c).toList ++ cs) =
      some (c.toNat :: units, ⟨rest, h'⟩) := by
  cases hshort : Quoting.json.short? c with
  | some letter =>
    obtain ⟨hletter, hc⟩ := shortEscape?_of_short? hshort
    have hescape : Quoting.json.escape c = String.ofList ['\\', letter] := by
      unfold Quoting.escape
      rw [hshort]
    rw [hescape, String.toList_ofList]
    exact stringUnits?_letter hletter hc hread
  | none =>
    have hescape : Quoting.json.escape c =
        if Quoting.json.byCode c then Quoting.json.code c.toNat else String.singleton c := by
      unfold Quoting.escape
      rw [hshort]
    rw [hescape]
    by_cases hcontrol : c.toNat < 0x20
    · obtain ⟨htext, hunit⟩ := code_eq hcontrol
      have hcode : Quoting.json.byCode c = true := decide_eq_true hcontrol
      rw [if_pos hcode, htext]
      exact stringUnits?_code hunit hread
    · have hcode : ¬ Quoting.json.byCode c = true := fun h => hcontrol (of_decide_eq_true h)
      have hquote : c ≠ '"' := by
        rintro rfl
        simp [Quoting.json] at hshort
      have hslash : c ≠ '\\' := by
        rintro rfl
        simp [Quoting.json] at hshort
      rw [if_neg hcode, String.toList_singleton]
      exact stringUnits?_plain hquote hslash hcontrol hread

end

/-- A quoted text is read up to its closing quote. -/
theorem stringUnits?_quoted (text rest : List Char) :
    ∃ h, stringUnits? (text.flatMap (fun c => (Quoting.json.escape c).toList) ++ '"' :: rest) =
      some (text.map Char.toNat, ⟨rest, h⟩) := by
  induction text with
  | nil =>
    refine ⟨Nat.lt_succ_self _, ?_⟩
    show stringUnits? ('"' :: rest) = _
    rw [stringUnits?]
    rfl
  | cons c text ih =>
    obtain ⟨h, hread⟩ := ih
    rw [List.flatMap_cons, List.append_assoc]
    exact stringUnits?_escape c hread

/-- Characters are no surrogates. -/
theorem joinSurrogates?_map (text : List Char) : joinSurrogates? (text.map Char.toNat) = some text := by
  have hvalid : ∀ c : Char, c.toNat < 0xD800 ∨ 0xE000 ≤ c.toNat := by
    intro c
    rcases c.valid with hlow | ⟨hhigh, -⟩
    · exact .inl hlow
    · exact .inr hhigh
  induction text with
  | nil => rfl
  | cons c text ih =>
    have hc := hvalid c
    have hchar : Char.ofNat c.toNat = c := Char.ofNat_toNat c
    cases text with
    | nil =>
      show joinSurrogates? [c.toNat] = _
      rw [joinSurrogates?, if_neg (by simp; omega), hchar]
    | cons d text =>
      show joinSurrogates? (c.toNat :: d.toNat :: text.map Char.toNat) = _
      rw [joinSurrogates?, if_neg (by simp; omega), if_neg (by simp; omega)]
      show (joinSurrogates? ((d :: text).map Char.toNat)).map _ = _
      rw [ih, hchar]
      rfl

/-! ## Tokens -/

theorem tokens?_cons (c : Char) (rest : List Char) : tokens? (c :: rest) =
    if isBlank c then tokens? rest
    else if c = '"' then (stringUnits? rest).bind fun read =>
      (tokens? read.2.1).map (.text ((joinSurrogates? read.1).map String.ofList) :: ·)
    else match punctuation? c with
      | some token => (tokens? rest).map (token :: ·)
      | none =>
        if isAtomChar c then (atom? (c :: rest.takeWhile isAtomChar)).bind fun value =>
          (tokens? (rest.dropWhile isAtomChar)).map (.atom value :: ·)
        else none := by
  rw [tokens?]
  split
  · rfl
  split
  · cases stringUnits? rest with
    | none => rfl
    | some read =>
      obtain ⟨units, rest', h⟩ := read
      show (tokens? rest').bind _ = Option.map _ (tokens? rest')
      cases tokens? rest' <;> rfl
  cases punctuation? c with
  | some token => rfl
  | none =>
    dsimp only
    split
    · cases atom? (c :: rest.takeWhile isAtomChar) with
      | none => rfl
      | some value =>
        show (tokens? _).bind _ = Option.map _ (tokens? _)
        cases tokens? (rest.dropWhile isAtomChar) <;> rfl
    · rfl

/-- A sign of punctuation is a token. -/
theorem tokens?_punctuation {c : Char} {token : Token} (hc : punctuation? c = some token)
    (rest : List Char) : tokens? (c :: rest) = (tokens? rest).map (token :: ·) := by
  have hblank : ¬ isBlank c = true := by
    intro h
    unfold isBlank at h
    unfold punctuation? at hc
    simp only [Bool.or_eq_true, decide_eq_true_eq] at h
    rcases h with ((rfl | rfl) | rfl) | rfl <;> simp at hc
  have hquote : c ≠ '"' := by
    rintro rfl
    simp [punctuation?] at hc
  rw [tokens?_cons, if_neg hblank, if_neg hquote, hc]

/-- A quoted text is a token. -/
theorem tokens?_quote (text : String) (rest : List Char) :
    tokens? ((Quoting.json.quote text).toList ++ rest) =
      (tokens? rest).map (.text (some text) :: ·) := by
  obtain ⟨h, hread⟩ := stringUnits?_quoted text.toList rest
  have htext : (Quoting.json.quote text).toList ++ rest =
      '"' :: (text.toList.flatMap (fun c => (Quoting.json.escape c).toList) ++ '"' :: rest) := by
    unfold Quoting.quote
    rw [String.toList_append, String.toList_append, String.toList_join, List.flatMap_map]
    simp
  rw [htext, tokens?_cons, if_neg (by decide), if_pos rfl, hread]
  dsimp only [Option.bind_some]
  rw [joinSurrogates?_map, Option.map_some, String.ofList_toList]

/-- A word or number is a token, up to what is no part of it. -/
theorem tokens?_atom {word rest : List Char} {value : Json} (hword : ∀ c ∈ word, isAtomChar c = true)
    (hne : word ≠ []) (hrest : ∀ c ∈ rest.head?, isAtomChar c = false)
    (hvalue : atom? word = some value) :
    tokens? (word ++ rest) = (tokens? rest).map (.atom value :: ·) := by
  obtain ⟨c, others, rfl⟩ := List.exists_cons_of_ne_nil hne
  obtain ⟨hc, hothers⟩ := List.forall_mem_cons.1 hword
  have hblank : ¬ isBlank c = true := by
    intro h
    unfold isBlank at h
    simp only [Bool.or_eq_true, decide_eq_true_eq] at h
    rcases h with ((rfl | rfl) | rfl) | rfl <;> exact absurd hc (by decide)
  have hquote : c ≠ '"' := by
    rintro rfl
    exact absurd hc (by decide)
  have hpunctuation : punctuation? c = none := by
    unfold punctuation?
    iterate 6
      rw [if_neg (by rintro rfl; exact absurd hc (by decide))]
  have hends : ∀ h : 0 < rest.length, ¬ isAtomChar rest[0] = true := by
    intro h
    rw [hrest rest[0] (by rw [List.head?_eq_getElem?, List.getElem?_eq_getElem h]; rfl)]
    exact Bool.false_ne_true
  have htake : (others ++ rest).takeWhile isAtomChar = others := by
    rw [List.takeWhile_append_of_pos hothers, List.takeWhile_eq_nil_iff.2 hends, List.append_nil]
  have hdrop : (others ++ rest).dropWhile isAtomChar = rest := by
    rw [List.dropWhile_append_of_pos hothers, List.dropWhile_eq_self_iff.2 hends]
  rw [List.cons_append, tokens?_cons, if_neg hblank, if_neg hquote, hpunctuation]
  dsimp only
  rw [if_pos hc, htake, hdrop, hvalue]
  rfl

/-! ## Values -/

/-- A document that has a text: its numbers are literals, and its strings stand for texts. -/
inductive Readable : Json → Prop where
  | null : Readable .null
  | bool (b : Bool) : Readable (.bool b)
  | number (text : String) (h : (literal? text.toList).isSome) : Readable (.number text)
  | string (text : String) : Readable (.string text)
  | array (items : List Json) (h : ∀ item ∈ items, Readable item) : Readable (.array items)
  | object (members : List (String × Json)) (h : ∀ member ∈ members, Readable member.2) :
    Readable (.object members)

/-- The state after the tokens of a text. -/
def readFrom (state : Reading) (cs : List Char) : Option Reading :=
  (tokens? cs).bind fun tokens => tokens.foldlM Reading.next? state

theorem readFrom_token {cs rest : List Char} {token : Token} {state state' : Reading}
    (hcs : tokens? cs = (tokens? rest).map (token :: ·)) (hstate : state.next? token = some state') :
    readFrom state cs = readFrom state' rest := by
  unfold readFrom
  rw [hcs]
  cases tokens? rest with
  | none => rfl
  | some tokens =>
    show (token :: tokens).foldlM Reading.next? state = _
    rw [List.foldlM_cons, hstate]
    rfl

theorem readFrom_sign {c : Char} {token : Token} {state state' : Reading}
    (hc : punctuation? c = some token) (hstate : state.next? token = some state')
    (rest : List Char) : readFrom state (c :: rest) = readFrom state' rest :=
  readFrom_token (tokens?_punctuation hc rest) hstate

/-- The text of a document is read as the document, wherever one may stand. -/
def ReadBack (document : Json) : Prop :=
  ∀ (stack : List Open) (orClose : Bool) (rest : List Char),
    (∀ c ∈ rest.head?, isAtomChar c = false) →
      readFrom (.within stack (.value orClose)) (document.compact.toList ++ rest) =
        readFrom (.complete document stack) rest

theorem readBack_atom {document : Json} (hchars : ∀ c ∈ document.compact.toList, isAtomChar c = true)
    (hvalue : atom? document.compact.toList = some document) : document.ReadBack := by
  intro stack orClose rest hrest
  have hne : document.compact.toList ≠ [] := by
    intro h
    rw [h] at hvalue
    cases hvalue
  exact readFrom_token (tokens?_atom hchars hne hrest hvalue) rfl

theorem atom?_literal {text : String} (h : (literal? text.toList).isSome) :
    atom? text.toList = some (.number text) := by
  obtain ⟨l, hl⟩ := Option.isSome_iff_exists.1 h
  unfold atom?
  rw [String.ofList_toList]
  split
  · cases hl
  · cases hl
  · cases hl
  · rw [hl]
    rfl

/-- Items are read one after the other, up to the bracket that closes their array. -/
theorem readFrom_items {items : List Json} (h : ∀ item ∈ items, item.ReadBack) (hne : items ≠ [])
    (before : List Json) (stack : List Open) (orClose : Bool) (rest : List Char) :
    readFrom (.within (.array before :: stack) (.value orClose))
        ((",".intercalate (compactItems items)).toList ++ ']' :: rest) =
      readFrom (.complete (.array (before.reverse ++ items)) stack) rest := by
  induction items generalizing before orClose with
  | nil => exact absurd rfl hne
  | cons item later ih =>
    obtain ⟨hitem, hlater⟩ := List.forall_mem_cons.1 h
    cases later with
    | nil =>
      rw [compactItems, compactItems, String.intercalate_singleton,
        hitem _ orClose (']' :: rest) (by rintro c ⟨⟩; rfl), Reading.complete,
        readFrom_sign rfl rfl, List.reverse_cons]
    | cons next later =>
      have hnext := ih hlater (List.cons_ne_nil _ _) (item :: before) false
      rw [compactItems, String.intercalate_cons_of_ne_nil (by simp [compactItems]),
        String.toList_append, String.toList_append, List.append_assoc, List.append_assoc,
        hitem _ orClose _ (by rintro c ⟨⟩; rfl), Reading.complete]
      show readFrom _ (',' :: (_ ++ ']' :: rest)) = _
      rw [readFrom_sign rfl rfl, hnext, List.reverse_cons, List.append_assoc, List.singleton_append]

theorem readFrom_member {key : String} {value : Json} (h : value.ReadBack)
    (before : List (String × Json)) (last : String) (stack : List Open) (orClose : Bool)
    {rest : List Char} (hrest : ∀ c ∈ rest.head?, isAtomChar c = false) :
    readFrom (.within (.object before last true :: stack) (.key orClose))
        ((Quoting.json.quote key ++ ":" ++ value.compact).toList ++ rest) =
      readFrom (.within (.object ((key, value) :: before) key true :: stack) .separator) rest := by
  rw [String.toList_append, String.toList_append, List.append_assoc, List.append_assoc,
    readFrom_token (tokens?_quote key _) rfl]
  show readFrom _ (':' :: (value.compact.toList ++ rest)) = _
  rw [readFrom_sign rfl rfl, h _ false rest hrest, Reading.complete]

/-- Members are read one after the other, up to the brace that closes their object. -/
theorem readFrom_members {members : List (String × Json)}
    (h : ∀ member ∈ members, member.2.ReadBack) (hne : members ≠ [])
    (before : List (String × Json)) (last : String) (stack : List Open) (orClose : Bool)
    (rest : List Char) :
    readFrom (.within (.object before last true :: stack) (.key orClose))
        ((",".intercalate (compactMembers members)).toList ++ '\x7d' :: rest) =
      readFrom (.complete (.object (before.reverse ++ members)) stack) rest := by
  induction members generalizing before last orClose with
  | nil => exact absurd rfl hne
  | cons member later ih =>
    obtain ⟨key, value⟩ := member
    obtain ⟨hvalue, hlater⟩ := List.forall_mem_cons.1 h
    cases later with
    | nil =>
      rw [compactMembers, compactMembers, String.intercalate_singleton,
        readFrom_member hvalue _ _ _ _ (by rintro c ⟨⟩; rfl), readFrom_sign rfl rfl,
        if_pos rfl, List.reverse_cons]
    | cons next later =>
      have hnext := ih hlater (List.cons_ne_nil _ _) ((key, value) :: before) key false
      rw [compactMembers, String.intercalate_cons_of_ne_nil (by simp [compactMembers]),
        String.toList_append, String.toList_append, List.append_assoc, List.append_assoc,
        readFrom_member hvalue _ _ _ _ (by rintro c ⟨⟩; rfl)]
      show readFrom _ (',' :: (_ ++ '\x7d' :: rest)) = _
      rw [readFrom_sign rfl rfl, hnext, List.reverse_cons, List.append_assoc, List.singleton_append]

/-- **A document is read back from its text.** -/
theorem readFrom_compact {document : Json} (h : document.Readable) : document.ReadBack := by
  induction h with
  | null => exact readBack_atom (List.all_eq_true.1 rfl) rfl
  | bool b => cases b <;> exact readBack_atom (List.all_eq_true.1 rfl) rfl
  | number text htext =>
    obtain ⟨l, hl⟩ := Option.isSome_iff_exists.1 htext
    exact readBack_atom (isAtomChar_of_literal? hl) (atom?_literal htext)
  | string text =>
    intro stack orClose rest _
    exact readFrom_token (tokens?_quote text rest) rfl
  | array items _ ih =>
    intro stack orClose rest _
    rw [compact, String.toList_append, String.toList_append, List.append_assoc, List.append_assoc]
    show readFrom _ ('[' :: (_ ++ ']' :: rest)) = _
    rw [readFrom_sign rfl rfl]
    cases items with
    | nil => exact readFrom_sign rfl rfl rest
    | cons item later => exact readFrom_items ih (List.cons_ne_nil _ _) [] stack true rest
  | object members _ ih =>
    intro stack orClose rest _
    rw [compact, String.toList_append, String.toList_append, List.append_assoc, List.append_assoc]
    show readFrom _ ('\x7b' :: (_ ++ '\x7d' :: rest)) = _
    rw [readFrom_sign rfl rfl]
    cases members with
    | nil => exact readFrom_sign rfl rfl rest
    | cons member later =>
      exact readFrom_members ih (List.cons_ne_nil _ _) [] "" stack true rest

/-- Reading a compact document gives the document. -/
theorem parse?_compact {document : Json} (h : document.Readable) :
    parse? document.compact = some document := by
  have hread := readFrom_compact h [] false [] (by simp)
  rw [List.append_nil] at hread
  have hdone : readFrom (.complete document []) [] = some (.done document) := by
    unfold readFrom
    rw [tokens?]
    rfl
  unfold parse?
  show ((tokens? document.compact.toList).bind fun tokens =>
    (tokens.foldlM Reading.next? (.within [] (.value false))).bind _) = _
  rw [← Option.bind_assoc]
  show Option.bind (readFrom _ _) _ = _
  rw [hread, hdone]
  rfl

/-- **Different documents have different texts.** -/
theorem compact_injective {document document' : Json} (h : document.Readable)
    (h' : document'.Readable) (htext : document.compact = document'.compact) :
    document = document' := by
  have hread := parse?_compact h
  rw [htext, parse?_compact h'] at hread
  exact (Option.some.inj hread).symm

end Json

end ProblemSolving
