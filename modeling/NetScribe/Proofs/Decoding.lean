import NetScribe.Proofs.Documents
import NetScribe.Proofs.Skipping

/-!
# Documents as trees

A document is read from its text as the text comes, character by character. On the compact text of a
tree each reader does the same as a decoder does on the tree (`Decodes`): both refuse, or the reader
reads what the decoder gives and stops where the text of the tree ends. A decoder follows the tree
and knows nothing of texts, so what is shown of trees holds of their texts; the last step is
`Document.ofText_text_eq_ok_iff`.

Trees are any trees. Their numbers need not read back: `leaf?` is what the text of a number is read
as, and `reread` what the text of a value is read as when at most so many brackets are around one
another.
-/

namespace NetScribe

namespace Json

variable {α β σ : Type}

/-! ## Readers and decoders -/

/-- A reader takes the text of a value as a decoder takes the value, and no character more. -/
def Decodes (reader : Reader α) (decode : Json → Option α) : Prop :=
  ∀ v ⦃tail⦄, Ends tail → (reader (v.chars ++ tail)).toOption = (decode v).map (·, tail)

theorem toOption_bind {ε : Type} (x : Except ε α) (f : α → Except ε β) :
    (x >>= f).toOption = x.toOption.bind fun a => (f a).toOption := by
  cases x <;> rfl

theorem toOption_map {ε : Type} (x : Except ε α) (f : α → β) :
    (x.map f).toOption = x.toOption.map f := by
  cases x <;> rfl

variable {reader : Reader α} {decode : Json → Option α}

/-- What follows a reader goes on where the text of the value ends. -/
theorem Decodes.bind (h : Decodes reader decode) {tail : List Char} (hend : Ends tail) (v : Json)
    (next : α × List Char → Except Fault β) :
    (reader (v.chars ++ tail) >>= next).toOption =
      (decode v).bind fun a => (next (a, tail)).toOption := by
  rw [toOption_bind, h v hend, Option.bind_map]
  rfl

/-- What is read may be put to use. -/
theorem Decodes.map (h : Decodes reader decode) (f : α → β) :
    Decodes (fun text => do
      let (a, rest) ← reader text
      .ok (f a, rest)) fun v => (decode v).map f := by
  intro v tail hend
  refine (h.bind hend v _).trans ?_
  dsimp only
  cases decode v <;> rfl

/-! ## How texts start -/

/-- The first character of the text of a value: a quote starts strings only, a bracket the values it
belongs to, and the letter `n` only `null`. -/
structure StartsWith (v : Json) (c : Char) (rest : List Char) : Prop where
  chars : v.chars = c :: rest
  blank : isBlank c = false
  quote : c = '"' → ∃ text, v = .string text
  list : c = '[' → ∃ items, v = .array items
  object : c = '\x7b' → ∃ members, v = .object members
  null : c = 'n' → v.chars = ['n', 'u', 'l', 'l']

/-- Any other character tells nothing. -/
theorem startsWith_of_not_mem {v : Json} {c : Char} {rest : List Char}
    (hchars : v.chars = c :: rest) (hblank : isBlank c = false)
    (hc : c ∉ ['"', '[', '\x7b', 'n']) : StartsWith v c rest := by
  simp only [List.mem_cons, List.not_mem_nil, or_false, not_or] at hc
  obtain ⟨hquote, hlist, hobject, hnull⟩ := hc
  exact ⟨hchars, hblank, fun h => absurd h hquote, fun h => absurd h hlist,
    fun h => absurd h hobject, fun h => absurd h hnull⟩

theorem startsWith_digit {v : Json} {c : Char} {rest : List Char} (hchars : v.chars = c :: rest)
    (hc : isDigit c = true) : StartsWith v c rest := by
  refine startsWith_of_not_mem hchars (starts_of_isFloatChar (by simp [isFloatChar, hc])).1 ?_
  intro hmem
  simp only [List.mem_cons, List.not_mem_nil, or_false] at hmem
  rcases hmem with rfl | rfl | rfl | rfl <;> cases hc

theorem exists_startsWith (v : Json) : ∃ c rest, StartsWith v c rest := by
  have hbracket : ∀ {c : Char} {rest}, v.chars = c :: rest → isBlank c = false → c ≠ 'n' →
      (c = '"' → ∃ text, v = .string text) → (c = '[' → ∃ items, v = .array items) →
      (c = '\x7b' → ∃ members, v = .object members) → ∃ c rest, StartsWith v c rest :=
    fun hchars hblank hn hquote hlist hobject =>
      ⟨_, _, hchars, hblank, hquote, hlist, hobject, fun h => absurd h hn⟩
  cases hdepth : v.depth with
  | zero =>
    rcases leaf_cases hdepth with hv | hv | hv | ⟨text, rfl⟩ | ⟨digits, hdigits, hv | hv⟩
    · exact ⟨_, _, hv, rfl, by simp, by simp, by simp, fun _ => hv⟩
    · exact ⟨_, _, startsWith_of_not_mem hv rfl (by decide)⟩
    · exact ⟨_, _, startsWith_of_not_mem hv rfl (by decide)⟩
    · exact hbracket rfl rfl (by decide) (fun _ => ⟨text, rfl⟩) (by simp) (by simp)
    · obtain ⟨c, rest, rfl, hc⟩ := hdigits.first
      exact ⟨_, _, startsWith_digit hv hc⟩
    · exact ⟨_, _, startsWith_of_not_mem hv rfl (by decide)⟩
  | succ n =>
    cases v with
    | array items =>
      exact hbracket (chars_array items) rfl (by decide) (by simp) (fun _ => ⟨items, rfl⟩) (by simp)
    | object members =>
      exact hbracket (chars_object members) rfl (by decide) (by simp) (by simp)
        fun _ => ⟨members, rfl⟩
    | _ => cases hdepth

theorem bracket_cases (v : Json) :
    (∃ members, v = .object members) ∨ (∃ items, v = .array items) ∨ v.depth = 0 := by
  cases v with
  | object members => exact Or.inl ⟨members, rfl⟩
  | array items => exact Or.inr (Or.inl ⟨items, rfl⟩)
  | _ => exact Or.inr (Or.inr rfl)

/-- A value without brackets does not start with one. -/
theorem StartsWith.of_leaf {v : Json} {c : Char} {rest : List Char} (h : StartsWith v c rest)
    (hleaf : v.depth = 0) : c ≠ '[' ∧ c ≠ '\x7b' := by
  constructor
  · intro hc
    obtain ⟨items, rfl⟩ := h.list hc
    rw [depth] at hleaf
    cases hleaf
  · intro hc
    obtain ⟨members, rfl⟩ := h.object hc
    rw [depth] at hleaf
    cases hleaf

/-! ## Values without brackets -/

/-- What a value without brackets is read as; one with brackets is not. -/
def leaf? (v : Json) : Option Json := ((valueWith none v.chars).toOption).map Prod.fst

theorem leaf?_array (items : List Json) : leaf? (.array items) = none := by
  rw [leaf?, chars_array]
  rfl

theorem leaf?_object (members : List (String × Json)) : leaf? (.object members) = none := by
  rw [leaf?, chars_object]
  rfl

theorem Unsigned.number {digits : List Char} (h : Unsigned digits) (minus : Bool) :
    ∃ read : Option Json, ∀ ⦃tail⦄, Ends tail →
      (number minus (digits ++ tail)).toOption = read.map (·, tail) := by
  obtain ⟨n, hn⟩ := h.numeral minus
  refine ⟨n.value?, fun tail hend => ?_⟩
  rw [Json.number, stops_numeral minus hn hend]
  dsimp only
  cases n.value? <;> rfl

/-- What reads a text the same under all endings is known from the text alone. -/
theorem map_fst_of_exact {read : Option α} {text : List Char} {reader : Reader α}
    (h : ∀ ⦃tail⦄, Ends tail → (reader (text ++ tail)).toOption = read.map (·, tail)) :
    (reader text).toOption.map Prod.fst = read := by
  have hnil := h ends_nil
  rw [List.append_nil] at hnil
  rw [hnil, Option.map_map]
  exact Option.map_id'

theorem toOption_leaf (inner : Option (Reader Json)) {v : Json} (h : v.depth = 0)
    {tail : List Char} (hend : Ends tail) :
    (valueWith inner (v.chars ++ tail)).toOption = (leaf? v).map (·, tail) := by
  -- what is read depends neither on the ending nor on how a bracket would be read
  suffices hread : ∃ read : Option Json, ∀ inner ⦃tail⦄, Ends tail →
      (valueWith inner (v.chars ++ tail)).toOption = read.map (·, tail) by
    obtain ⟨read, hread⟩ := hread
    rw [leaf?, map_fst_of_exact (hread none), hread inner hend]
  rcases leaf_cases h with hv | hv | hv | ⟨text, rfl⟩ | ⟨digits, hdigits, hv | hv⟩
  · exact ⟨some .null, fun _ _ _ => by rw [hv]; rfl⟩
  · exact ⟨some (.bool true), fun _ _ _ => by rw [hv]; rfl⟩
  · exact ⟨some (.bool false), fun _ _ _ => by rw [hv]; rfl⟩
  · refine ⟨some (.string text), fun inner tail hend => ?_⟩
    rw [chars, reads_string inner text hend]
    rfl
  · obtain ⟨read, hread⟩ := hdigits.number false
    obtain ⟨c, rest, rfl, hc⟩ := hdigits.first
    refine ⟨read, fun inner tail hend => ?_⟩
    rw [hv, List.cons_append, valueWith_digit inner hc]
    exact hread hend
  · obtain ⟨read, hread⟩ := hdigits.number true
    refine ⟨read, fun inner tail hend => ?_⟩
    rw [hv]
    exact hread hend

/-! ## Lists and objects -/

theorem itemChars_cons_append (item : Json) (rest : List Json) (tail : List Char) :
    itemChars (item :: rest) ++ tail = ',' :: (item.chars ++ (itemChars rest ++ tail)) := by
  simp [itemChars]

theorem listBody_cons_append (first : Json) (rest : List Json) (tail : List Char) :
    listBody (first :: rest) ++ tail = first.chars ++ (itemChars rest ++ ']' :: tail) := by
  simp [listBody]

theorem memberChars_cons_append (key : String) (v : Json) (rest : List (String × Json))
    (tail : List Char) :
    memberChars ((key, v) :: rest) ++ tail =
      ',' :: (stringChars key ++ (':' :: (v.chars ++ (memberChars rest ++ tail)))) := by
  simp [memberChars]

theorem objectBody_cons_append (key : String) (v : Json) (rest : List (String × Json))
    (tail : List Char) :
    objectBody ((key, v) :: rest) ++ tail =
      stringChars key ++ (':' :: (v.chars ++ (memberChars rest ++ '\x7d' :: tail))) := by
  simp [objectBody]

/-- The items behind the first are read up to the closing bracket, or one of them is not. -/
theorem toOption_itemsFrom (h : Decodes reader decode) {items : List Json} {bound : List Char}
    (hbound : items.length < bound.length) (read : List α) (tail : List Char) :
    (itemsFrom reader bound false read (itemChars items ++ ']' :: tail)).toOption =
      (items.mapM decode).map fun list => (read.reverse ++ list, ']' :: tail) := by
  induction items generalizing bound read with
  | nil =>
    cases bound with
    | nil => cases hbound
    | cons _ bound => simp [itemsFrom, itemChars, nextItem_end, bind, Except.bind, Except.toOption]
  | cons item rest ih =>
    cases bound with
    | nil => cases hbound
    | cons _ bound =>
      have hlength : rest.length < bound.length := by simpa using hbound
      rw [itemChars_cons_append, itemsFrom, nextItem_comma]
      change (reader (item.chars ++ (itemChars rest ++ ']' :: tail)) >>= _).toOption = _
      refine (h.bind (ends_itemChars rest tail) item _).trans ?_
      rw [List.mapM_cons]
      cases decode item with
      | none => rfl
      | some a =>
        refine (ih hlength (a :: read)).trans ?_
        cases rest.mapM decode <;> simp

/-- Every item behind the first has a comma. -/
theorem length_le_itemChars (items : List Json) : items.length ≤ (itemChars items).length := by
  induction items with
  | nil => exact Nat.le_refl _
  | cons item rest ih =>
    simp only [itemChars, List.cons_append, List.length_cons, List.length_append]
    omega

/-- The first item is read as one behind a comma. -/
theorem itemsFrom_first (reader : Reader α) (c : Char) (bound : List Char) (read : List α)
    (list : List Json) (tail : List Char) :
    itemsFrom reader (c :: bound) true read (listBody list ++ tail) =
      itemsFrom reader (c :: bound) false read (itemChars list ++ ']' :: tail) := by
  cases list with
  | nil => rfl
  | cons first rest =>
    rw [listBody_cons_append, itemChars_cons_append, itemsFrom, itemsFrom, nextItem_first,
      nextItem_comma]

/-- **A list is read item by item.** -/
theorem toOption_items (h : Decodes reader decode) (list : List Json) (tail : List Char) :
    (items reader (listBody list ++ tail)).toOption = (list.mapM decode).map (·, tail) := by
  have hbound : list.length < (listBody list ++ tail).length := by
    have hlength := length_lt_listBody list
    rw [List.length_append]
    omega
  have hitems :
      (itemsFrom reader (listBody list ++ tail) true [] (listBody list ++ tail)).toOption =
        (list.mapM decode).map (·, ']' :: tail) := by
    obtain ⟨c, rest, htext⟩ := List.exists_cons_of_length_pos (Nat.zero_lt_of_lt hbound)
    rw [htext] at hbound
    nth_rewrite 1 [htext]
    rw [itemsFrom_first]
    exact toOption_itemsFrom h hbound [] tail
  rw [items, toOption_bind, hitems, Option.bind_map]
  cases list.mapM decode <;> rfl

variable {member : σ → String → Reader σ} {step : σ → String × Json → Option σ}

/-- A reader of members takes each as a step takes its key and value. -/
def DecodesMember (member : σ → String → Reader σ) (step : σ → String × Json → Option σ) : Prop :=
  ∀ state key v ⦃tail⦄, Ends tail →
    (member state key (':' :: (v.chars ++ tail))).toOption = (step state (key, v)).map (·, tail)

theorem DecodesMember.bind (h : DecodesMember member step) {tail : List Char} (hend : Ends tail)
    (state : σ) (key : String) (v : Json) (next : σ × List Char → Except Fault β) :
    (member state key (':' :: (v.chars ++ tail)) >>= next).toOption =
      (step state (key, v)).bind fun state => (next (state, tail)).toOption := by
  rw [toOption_bind, h state key v hend, Option.bind_map]
  rfl

/-- The members behind the first are taken in turn up to the closing bracket. -/
theorem toOption_membersFrom (h : DecodesMember member step) {list : List (String × Json)}
    {bound : List Char} (hbound : list.length < bound.length) (start : σ) (tail : List Char) :
    (membersFrom member bound false start (memberChars list ++ '\x7d' :: tail)).toOption =
      (list.foldlM step start).map (·, '\x7d' :: tail) := by
  induction list generalizing bound start with
  | nil =>
    cases bound with
    | nil => cases hbound
    | cons _ bound => rfl
  | cons first rest ih =>
    obtain ⟨key, v⟩ := first
    cases bound with
    | nil => cases hbound
    | cons _ bound =>
      have hlength : rest.length < bound.length := by simpa using hbound
      rw [memberChars_cons_append, membersFrom, nextKey_comma]
      change (member start key (':' :: (v.chars ++ (memberChars rest ++ '\x7d' :: tail))) >>=
        _).toOption = _
      refine (h.bind (ends_memberChars rest tail) start key v _).trans ?_
      rw [List.foldlM_cons]
      cases step start (key, v) with
      | none => rfl
      | some next => exact ih hlength next

/-- The first member is read as one behind a comma. -/
theorem membersFrom_first (member : σ → String → Reader σ) (c : Char) (bound : List Char)
    (start : σ) (list : List (String × Json)) (tail : List Char) :
    membersFrom member (c :: bound) true start (objectBody list ++ tail) =
      membersFrom member (c :: bound) false start (memberChars list ++ '\x7d' :: tail) := by
  cases list with
  | nil => rfl
  | cons first rest =>
    obtain ⟨key, v⟩ := first
    rw [objectBody_cons_append, memberChars_cons_append, membersFrom, membersFrom, nextKey_first,
      nextKey_comma]

/-- **An object is read member by member.** -/
theorem toOption_members (h : DecodesMember member step) (list : List (String × Json)) (start : σ)
    (tail : List Char) :
    (members member start (objectBody list ++ tail)).toOption =
      (list.foldlM step start).map (·, '\x7d' :: tail) := by
  have hbound : list.length < (objectBody list ++ tail).length := by
    have hlength := length_lt_objectBody list
    rw [List.length_append]
    omega
  obtain ⟨c, rest, htext⟩ := List.exists_cons_of_length_pos (Nat.zero_lt_of_lt hbound)
  rw [htext] at hbound
  rw [members]
  nth_rewrite 1 [htext]
  rw [membersFrom_first]
  exact toOption_membersFrom h hbound start tail

/-! ## Values of one kind -/

/-- A value as a string. -/
def text? : Json → Option String
  | .string text => some text
  | _ => none

theorem decodes_readText : Decodes readText text? := by
  intro v tail hend
  by_cases hstring : ∃ text, v = .string text
  · obtain ⟨text, rfl⟩ := hstring
    rw [reads_readText text hend]
    rfl
  · have hnone : text? v = none := by
      cases v with
      | string text => exact absurd ⟨text, rfl⟩ hstring
      | _ => rfl
    obtain ⟨c, rest, hstart⟩ := exists_startsWith v
    rw [hnone, hstart.chars, List.cons_append, readText, skipBlanks_cons hstart.blank]
    split
    · next heq => cases heq
    · next heq => cases heq; exact absurd (hstart.quote rfl) hstring
    · rfl

/-- The decoder of a list of values. -/
def list? (decode : Json → Option α) : Json → Option (List α)
  | .array items => items.mapM decode
  | _ => none

theorem decodes_readList (h : Decodes reader decode) :
    Decodes (readList reader) (list? decode) := by
  intro v tail hend
  by_cases harray : ∃ items, v = .array items
  · obtain ⟨items, rfl⟩ := harray
    rw [chars_array]
    exact toOption_items h items tail
  · have hnone : list? decode v = none := by
      cases v with
      | array items => exact absurd ⟨items, rfl⟩ harray
      | _ => rfl
    obtain ⟨c, rest, hstart⟩ := exists_startsWith v
    rw [hnone, hstart.chars, List.cons_append, readList, skipBlanks_cons hstart.blank]
    split
    · next heq => cases heq
    · next heq => cases heq; exact absurd (hstart.list rfl) harray
    · rfl

/-- The decoder of a value that may be `null`. -/
def optional? (decode : Json → Option α) (v : Json) : Option (Option α) :=
  if v.chars = ['n', 'u', 'l', 'l'] then some none else (decode v).map some

theorem decodes_readOptional (h : Decodes reader decode) :
    Decodes (readOptional reader) (optional? decode) := by
  intro v tail hend
  obtain ⟨c, rest, hstart⟩ := exists_startsWith v
  by_cases hnull : v.chars = ['n', 'u', 'l', 'l']
  · rw [optional?, if_pos hnull, hnull]
    rfl
  · have hread := h v hend
    rw [optional?, if_neg hnull]
    rw [hstart.chars, List.cons_append] at hread ⊢
    rw [readOptional, skipBlanks_cons hstart.blank]
    split
    · next heq => cases heq; exact absurd (hstart.null rfl) hnull
    · rw [toOption_map, hread]
      cases decode v <;> rfl

/-- The decoder of a table. -/
def table? (decode : Json → Option α) : Json → Option (Table α)
  | .object members => members.foldlM (fun table member =>
      (decode member.2).map fun a => table.insert ⟨member.1⟩ a) .empty
  | _ => none

theorem decodes_readTable (h : Decodes reader decode) :
    Decodes (readTable reader) (table? decode) := by
  intro v tail hend
  by_cases hobject : ∃ members, v = .object members
  · obtain ⟨list, rfl⟩ := hobject
    have hmember : DecodesMember (Table.readMember reader) fun table member =>
        (decode member.2).map fun a => table.insert ⟨member.1⟩ a := by
      intro table key v tail hend
      exact h.map (fun a => table.insert ⟨key⟩ a) v hend
    rw [chars_object]
    change (members (Table.readMember reader) .empty (objectBody list ++ tail) >>= _).toOption = _
    rw [toOption_bind, toOption_members hmember, Option.bind_map, table?]
    generalize List.foldlM (m := Option) _ _ list = made
    cases made <;> rfl
  · have hnone : table? decode v = none := by
      cases v with
      | object members => exact absurd ⟨members, rfl⟩ hobject
      | _ => rfl
    obtain ⟨c, rest, hstart⟩ := exists_startsWith v
    rw [hnone, hstart.chars, List.cons_append, readTable, skipBlanks_cons hstart.blank]
    split
    · next heq => cases heq
    · next heq => cases heq; exact absurd (hstart.object rfl) hobject
    · rfl

/-- A value as a number. -/
def number? (v : Json) : Option Binary64 := (leaf? v).bind fun read => read.asNumber.toOption

theorem toOption_toNumber (read : Except Fault (Json × List Char)) :
    (toNumber read).toOption =
      read.toOption.bind fun found => found.1.asNumber.toOption.map (·, found.2) := by
  cases read with
  | error fault => rfl
  | ok found =>
    obtain ⟨v, rest⟩ := found
    rw [toNumber]
    cases hnumber : v.asNumber with
    | error cause => simp [hnumber, Except.toOption]
    | ok x => simp [hnumber, Except.toOption]

theorem decodes_readNumber : Decodes readNumber number? := by
  intro v tail hend
  -- a number is what it is without brackets, and everything else is refused
  have hnumber : ∀ {read : Except Fault (Json × List Char)},
      read.toOption = (leaf? v).map (·, tail) →
        (toNumber read).toOption = (number? v).map (·, tail) := by
    intro read hread
    rw [toOption_toNumber, hread, number?]
    cases leaf? v <;> rfl
  have hother : ∀ {c : Char} {rest : List Char}, v.chars = c :: rest → isBlank c = false →
      c ≠ '-' → isDigit c = false → number? v = none →
        (readNumber (v.chars ++ tail)).toOption = (number? v).map (·, tail) := by
    intro c rest hchars hblank hminus hdigit hnone
    rw [hnone, hchars, List.cons_append, readNumber, skipBlanks_cons hblank]
    split
    · next heq => cases heq
    · next heq => cases heq; exact absurd rfl hminus
    · next heq => cases heq; rw [if_neg (by simp [hdigit])]; rfl
  cases hdepth : v.depth with
  | zero =>
    have hleaf := toOption_leaf none hdepth hend
    rcases leaf_cases hdepth with hv | hv | hv | ⟨text, rfl⟩ | ⟨digits, hdigits, hv | hv⟩
    · exact hother hv rfl (by decide) rfl (by rw [number?, leaf?, hv]; rfl)
    · exact hother hv rfl (by decide) rfl (by rw [number?, leaf?, hv]; rfl)
    · exact hother hv rfl (by decide) rfl (by rw [number?, leaf?, hv]; rfl)
    · have hread := @reads_string none text [] ends_nil
      rw [List.append_nil] at hread
      exact hother rfl rfl (by decide) rfl (by rw [number?, leaf?, chars, hread]; rfl)
    · obtain ⟨c, rest, rfl, hc⟩ := hdigits.first
      have hstart := startsWith_digit hv hc
      rw [hv, List.cons_append] at hleaf ⊢
      rw [valueWith_digit none hc] at hleaf
      rw [readNumber, skipBlanks_cons hstart.blank]
      split
      · next heq => cases heq
      · next heq => cases heq; cases hc
      · next heq => cases heq; rw [if_pos hc]; exact hnumber hleaf
    · rw [hv] at hleaf ⊢
      exact hnumber hleaf
  | succ n =>
    cases v with
    | array items =>
      exact hother (chars_array items) rfl (by decide) rfl (by rw [number?, leaf?_array]; rfl)
    | object members =>
      exact hother (chars_object members) rfl (by decide) rfl (by rw [number?, leaf?_object]; rfl)
    | _ => cases hdepth

/-! ## Values of any kind -/

/-- What a value is read as if at most so many brackets are around one another. -/
def reread : Nat → Json → Option Json
  | 0, v => leaf? v
  | n + 1, .array items => (items.mapM (reread n)).map .array
  | n + 1, .object members =>
    (members.mapM fun member => (reread n member.2).map (member.1, ·)).map .object
  | _ + 1, v => leaf? v

theorem reread_leaf {v : Json} (h : v.depth = 0) (n : Nat) : reread n v = leaf? v := by
  cases v with
  | array items => rw [depth] at h; cases h
  | object members => rw [depth] at h; cases h
  | _ => cases n <;> rfl

/-- What is collected in front of what was read before is there in reverse. -/
theorem foldlM_collect {ι : Type} (f : ι → Option α) (list : List ι) (read : List α) :
    list.foldlM (fun read i => (f i).map (· :: read)) read =
      (list.mapM f).map fun found => found.reverse ++ read := by
  induction list generalizing read with
  | nil => rfl
  | cons i rest ih =>
    rw [List.foldlM_cons, List.mapM_cons]
    cases f i with
    | none => rfl
    | some a =>
      refine (ih (a :: read)).trans ?_
      cases rest.mapM f <;> simp

theorem decodesMember_anyMember {value : Reader Json} {decode : Json → Option Json}
    (h : Decodes value decode) :
    DecodesMember (anyMember value) fun read member =>
      ((decode member.2).map (member.1, ·)).map (· :: read) := by
  intro read key v tail hend
  refine (h.map (fun v => (key, v) :: read) v hend).trans ?_
  dsimp only
  cases decode v <;> rfl

/-- **A value is read as it is reread.** -/
theorem decodes_value (n : Nat) : Decodes (value n) (reread n) := by
  induction n with
  | zero =>
    intro v tail hend
    cases hdepth : v.depth with
    | zero => rw [reread_leaf hdepth]; exact toOption_leaf none hdepth hend
    | succ n =>
      cases v with
      | array items => rw [reread, leaf?_array, chars_array]; rfl
      | object members => rw [reread, leaf?_object, chars_object]; rfl
      | _ => cases hdepth
  | succ n ih =>
    intro v tail hend
    cases hdepth : v.depth with
    | zero => rw [reread_leaf hdepth]; exact toOption_leaf (some (value n)) hdepth hend
    | succ depth =>
      cases v with
      | array list =>
        rw [reread, chars_array]
        change ((items (value n) (listBody list ++ tail)).map _).toOption = _
        rw [toOption_map, toOption_items ih]
        cases list.mapM (reread n) <;> rfl
      | object list =>
        rw [reread, chars_object]
        change (members (anyMember (value n)) [] (objectBody list ++ tail) >>= _).toOption = _
        rw [toOption_bind, toOption_members (decodesMember_anyMember ih), foldlM_collect]
        generalize List.mapM (m := Option) _ list = found
        cases found with
        | none => rfl
        | some found =>
          change some (object (found.reverse ++ []).reverse, tail) = _
          rw [List.append_nil, List.reverse_reverse]
          rfl
      | _ => cases hdepth

end Json

/-! ## Records -/

namespace Form

open Json (Decodes DecodesMember Ends itemChars listBody objectBody)

variable {δ α ε : Type} (form : Form δ α)

/-- Take up a member: unknown ones change nothing, repeated ones are refused. -/
def step (take : String → δ → ε → Option δ) (draft : δ) (member : String × ε) : Option δ :=
  if form.fields.contains member.1 then
    if form.has draft member.1 then none else take member.1 draft member.2
  else some draft

/-- The record of an object's members. -/
def gather (take : String → δ → ε → Option δ) (members : List (String × ε)) : Option α :=
  (members.foldlM (form.step take) form.empty).bind fun draft => (form.finish draft).toOption

/-- The record of an array's items. -/
def fill (take : String → δ → ε → Option δ) (items : List ε) : Option α :=
  if form.fields.length < items.length then none
  else
    ((form.fields.zip items).foldlM (fun draft entry => take entry.1 draft entry.2)
      form.empty).bind fun draft => (form.finish draft).toOption

/-- The decoder of a record. -/
def decode (take : String → δ → Json → Option δ) : Json → Option α
  | .object members => form.gather take members
  | .array items => form.fill take items
  | _ => none

theorem decode_leaf {take : String → δ → Json → Option δ} {v : Json} (h : v.depth = 0) :
    form.decode take v = none := by
  cases v with
  | array items => rw [Json.depth] at h; cases h
  | object members => rw [Json.depth] at h; cases h
  | _ => rfl

variable {form} {set : String → δ → Json.Reader δ} {take : String → δ → Json → Option δ}

theorem decodesMember_readMember
    (h : ∀ field ∈ form.fields, ∀ draft, Decodes (set field draft) (take field draft)) :
    DecodesMember (form.readMember set) (form.step take) := by
  intro draft key v tail hend
  rw [readMember, step]
  by_cases hknown : form.fields.contains key = true
  · rw [if_pos hknown, if_pos hknown]
    cases form.has draft key with
    | true => rfl
    | false => exact h key (List.contains_iff_mem.mp hknown) draft v hend
  · rw [if_neg hknown, if_neg hknown]
    change (Json.skipValue (v.chars ++ tail) >>= _).toOption = _
    rw [Json.skipValue_chars v hend]
    rfl

/-- One item is taken up as one field, and the other items as the other fields. -/
theorem toOption_readItems_cons {field : String}
    (h : ∀ draft, Decodes (set field draft) (take field draft)) (fields : List String)
    {count : Nat} {text tail : List Char} {item : Json} {rest : List Json} (draft : δ)
    (hnext : Json.nextItem (count == 0) text =
      .ok (true, item.chars ++ (itemChars rest ++ ']' :: tail))) :
    (readItems set (field :: fields) count draft text).toOption =
      (take field draft item).bind fun draft =>
        (readItems set fields (count + 1) draft (itemChars rest ++ ']' :: tail)).toOption := by
  rw [readItems, hnext]
  exact (h draft).bind (Json.ends_itemChars rest tail) item _

/-- Behind the first item, fields are taken up in order as long as there are items. -/
theorem toOption_readItems {fields : List String}
    (h : ∀ field ∈ fields, ∀ draft, Decodes (set field draft) (take field draft))
    (items : List Json) (count : Nat) (draft : δ) (tail : List Char) :
    (readItems set fields (count + 1) draft (itemChars items ++ ']' :: tail)).toOption =
      ((fields.zip items).foldlM (fun draft entry => take entry.1 draft entry.2) draft).map
        fun draft => ((count + 1 + min fields.length items.length, draft),
          itemChars (items.drop fields.length) ++ ']' :: tail) := by
  induction fields generalizing items count draft with
  | nil => simp [readItems, Except.toOption]
  | cons field fields ih =>
    obtain ⟨hfield, hfields⟩ := List.forall_mem_cons.mp h
    cases items with
    | nil => rfl
    | cons item rest =>
      have hnext : Json.nextItem (count + 1 == 0)
          (',' :: (item.chars ++ (itemChars rest ++ ']' :: tail))) = _ := Json.nextItem_comma item _
      rw [Json.itemChars_cons_append, toOption_readItems_cons hfield fields draft hnext,
        List.zip_cons_cons, List.foldlM_cons]
      cases take field draft item with
      | none => rfl
      | some next =>
        have hcount : count + 1 + 1 + min fields.length rest.length =
            count + 1 + min (field :: fields).length (item :: rest).length := by
          simp only [List.length_cons]
          omega
        refine (ih hfields rest (count + 1) next).trans ?_
        rw [hcount]
        rfl

/-- And so they are from the first item on. -/
theorem toOption_readItems_listBody {fields : List String} (hne : fields ≠ [])
    (h : ∀ field ∈ fields, ∀ draft, Decodes (set field draft) (take field draft))
    (items : List Json) (draft : δ) (tail : List Char) :
    (readItems set fields 0 draft (listBody items ++ tail)).toOption =
      ((fields.zip items).foldlM (fun draft entry => take entry.1 draft entry.2) draft).map
        fun draft => ((min fields.length items.length, draft),
          itemChars (items.drop fields.length) ++ ']' :: tail) := by
  cases fields with
  | nil => exact absurd rfl hne
  | cons field fields =>
    obtain ⟨hfield, hfields⟩ := List.forall_mem_cons.mp h
    cases items with
    | nil => rfl
    | cons item rest =>
      have hnext : Json.nextItem (0 == 0) (item.chars ++ (itemChars rest ++ ']' :: tail)) = _ :=
        Json.nextItem_first item _
      rw [Json.listBody_cons_append, toOption_readItems_cons hfield fields draft hnext,
        List.zip_cons_cons, List.foldlM_cons]
      cases take field draft item with
      | none => rfl
      | some next =>
        have hcount : 0 + 1 + min fields.length rest.length =
            min (field :: fields).length (item :: rest).length := by
          simp only [List.length_cons]
          omega
        refine (toOption_readItems hfields rest 0 next tail).trans ?_
        rw [hcount]
        rfl

theorem toOption_closeList (items : List Json) (tail : List Char) :
    (Json.closeList (itemChars items ++ ']' :: tail)).toOption =
      if items = [] then some tail else none := by
  cases items with
  | nil => rfl
  | cons item rest =>
    obtain ⟨c, letters, hstart⟩ := Json.exists_startsWith item
    simp only [itemChars, hstart.chars, List.cons_append]
    rw [Json.closeList, Json.skipBlanks_cons rfl, if_neg (List.cons_ne_nil _ _)]
    split
    · next heq => cases heq
    · next heq => cases heq
    · split <;> rfl
    · rfl

/-- **A record is read as it is decoded**, from the members of an object or the items of an
array. -/
theorem decodes_read (hne : form.fields ≠ [])
    (h : ∀ field ∈ form.fields, ∀ draft, Decodes (set field draft) (take field draft)) :
    Decodes (form.read set) (form.decode take) := by
  intro v tail hend
  rcases v.bracket_cases with ⟨members, rfl⟩ | ⟨items, rfl⟩ | hleaf
  · rw [Json.chars_object]
    change (Json.members (form.readMember set) form.empty (objectBody members ++ tail) >>=
      _).toOption = _
    rw [Json.toOption_bind, Json.toOption_members (decodesMember_readMember h), Option.bind_map,
      decode, gather]
    cases members.foldlM (form.step take) form.empty with
    | none => rfl
    | some draft =>
      simp only [Option.bind_some, Function.comp_apply]
      cases form.finish draft <;> rfl
  · rw [Json.chars_array]
    change (readItems set form.fields 0 form.empty (listBody items ++ tail) >>= _).toOption = _
    rw [Json.toOption_bind, toOption_readItems_listBody hne h, Option.bind_map, decode, fill]
    -- items beyond the last field are still there when the list should close
    have hclose := toOption_closeList (items.drop form.fields.length) tail
    simp only [List.drop_eq_nil_iff] at hclose
    generalize List.foldlM (m := Option) _ _ (form.fields.zip items) = made
    cases made with
    | none => simp
    | some draft =>
      simp only [Option.bind_some, Function.comp_apply]
      cases form.finish draft with
      | error field => simp [Except.toOption]
      | ok record =>
        refine (Json.toOption_bind _ _).trans ?_
        rw [hclose]
        by_cases hlong : items.length ≤ form.fields.length
        · rw [if_pos hlong, if_neg (Nat.not_lt.mpr hlong)]
          rfl
        · rw [if_neg hlong, if_pos (Nat.not_le.mp hlong)]
          rfl
  · obtain ⟨c, rest, hstart⟩ := Json.exists_startsWith v
    obtain ⟨hlist, hobject⟩ := hstart.of_leaf hleaf
    rw [form.decode_leaf hleaf, hstart.chars, List.cons_append, read,
      Json.skipBlanks_cons hstart.blank]
    split
    · next heq => cases heq
    · next heq => cases heq; exact absurd rfl hobject
    · next heq => cases heq; exact absurd rfl hlist
    · rfl

/-- Take up a field of a record of two. -/
def halves {β γ : Type} (first : String) (left : Json → Option β) (right : Json → Option γ)
    (field : String) (draft : Option β × Option γ) (v : Json) : Option (Option β × Option γ) :=
  if field = first then (left v).map fun b => (some b, draft.2)
  else (right v).map fun c => (draft.1, some c)

section Halves

variable {β γ : Type} {left : Json → Option β} {right : Json → Option γ}
variable {leftReader : Json.Reader β} {rightReader : Json.Reader γ}

/-- Two fields with readers of their own. -/
theorem decodes_halves (hleft : Decodes leftReader left) (hright : Decodes rightReader right)
    (first field : String) (draft : Option β × Option γ) :
    Decodes (fun text =>
      if field = first then do
        let (b, rest) ← leftReader text
        .ok ((some b, draft.2), rest)
      else do
        let (c, rest) ← rightReader text
        .ok ((draft.1, some c), rest)) (halves first left right field draft) := by
  intro v tail hend
  rw [halves]
  by_cases hfield : field = first
  · simp only [if_pos hfield]
    exact hleft.map (fun b => (some b, draft.2)) v hend
  · simp only [if_neg hfield]
    exact hright.map (fun c => (draft.1, some c)) v hend

/-- Two fields that share a reader. -/
theorem decodes_halves_of_same (h : Decodes leftReader left) (first field : String)
    (draft : Option β × Option β) :
    Decodes (fun text => do
      let (b, rest) ← leftReader text
      .ok (if field = first then (some b, draft.2) else (draft.1, some b), rest))
      (halves first left left field draft) := by
  intro v tail hend
  refine (h.map (fun b => if field = first then (some b, draft.2) else (draft.1, some b)) v
    hend).trans ?_
  rw [halves]
  by_cases hfield : field = first
  · simp only [if_pos hfield]
  · simp only [if_neg hfield]

end Halves

end Form

open Json

/-! ## Resources -/

/-- The decoder of a recipe. -/
def Recipe.decode : Json → Option Recipe :=
  Recipe.form.decode (Form.halves "type" text? text?)

theorem Recipe.decodes_read : Decodes Recipe.read Recipe.decode :=
  Form.decodes_read (by decide) fun _ _ _ => Form.decodes_halves_of_same decodes_readText _ _ _

/-- The decoder of a model. -/
def Model.decode : Json → Option Model :=
  Model.form.decode (Form.halves "kind" text? (optional? Recipe.decode))

theorem Model.decodes_read : Decodes Model.read Model.decode :=
  Form.decodes_read (by decide) fun _ _ _ =>
    Form.decodes_halves decodes_readText (decodes_readOptional Recipe.decodes_read) _ _ _

/-- The decoder of a training example. -/
def Pair.decode : Json → Option Pair :=
  Pair.form.decode (Form.halves "input" (list? number?) (list? number?))

theorem Pair.decodes_read : Decodes Pair.read Pair.decode :=
  Form.decodes_read (by decide) fun _ _ _ =>
    Form.decodes_halves_of_same (decodes_readList decodes_readNumber) _ _ _

/-- The decoder of a dataset. -/
def Dataset.decode (v : Json) : Option Dataset :=
  (list? Pair.decode v).bind fun pairs => (Dataset.ofPairs pairs).toOption

theorem Dataset.decodes_read : Decodes Dataset.read Dataset.decode := by
  intro v tail hend
  refine ((decodes_readList Pair.decodes_read).bind hend v _).trans ?_
  rw [Dataset.decode]
  cases list? Pair.decode v with
  | none => rfl
  | some pairs =>
    simp only [Option.bind_some]
    cases Dataset.ofPairs pairs <;> rfl

/-- The decoder of a store. -/
def Store.decode : Json → Option Store :=
  Store.form.decode (Form.halves "models" (table? Model.decode) (table? Dataset.decode))

theorem Store.decodes_read : Decodes Store.read Store.decode :=
  Form.decodes_read (by decide) fun _ _ _ =>
    Form.decodes_halves (decodes_readTable Model.decodes_read)
      (decodes_readTable Dataset.decodes_read) _ _ _

/-! ## Programs -/

/-- The decoder of a tag: its spelling. -/
def Tag.decode (v : Json) : Option Tag := (text? v).bind fun spelling => (ofText spelling).toOption

theorem Tag.decodes_read : Decodes Tag.read Tag.decode := by
  intro v tail hend
  by_cases hstring : ∃ text, v = .string text
  · obtain ⟨text, rfl⟩ := hstring
    rw [chars, stringChars_append]
    change (stringBody (text.toList.flatMap escapeChar ++ '"' :: tail) >>= _).toOption = _
    rw [stringBody_escaped]
    simp only [Tag.decode, text?, Option.bind_some, bind, Except.bind]
    cases ofText text <;> rfl
  · have hnone : Tag.decode v = none := by
      cases v with
      | string text => exact absurd ⟨text, rfl⟩ hstring
      | _ => rfl
    obtain ⟨c, rest, hstart⟩ := exists_startsWith v
    rw [hnone, hstart.chars, List.cons_append, Tag.read, skipBlanks_cons hstart.blank]
    split
    · next heq => cases heq
    · next heq => cases heq; exact absurd (hstart.quote rfl) hstring
    · rfl

namespace Node

/-- Take up a member of a node: its tag, or another with its value. -/
def collect (read : Option Tag × List (String × Json)) (member : String × Json) :
    Option (Option Tag × List (String × Json)) :=
  if member.1 = Tag.key then
    if read.1.isSome then none else (Tag.decode member.2).map fun tag => (some tag, read.2)
  else (reread nesting member.2).map fun v => (read.1, (member.1, v) :: read.2)

theorem decodesMember_readMember : DecodesMember readMember collect := by
  intro read key v tail hend
  obtain ⟨tag, others⟩ := read
  rw [readMember, collect]
  by_cases hkey : key = Tag.key
  · rw [if_pos hkey, if_pos hkey]
    cases tag with
    | some tag => rfl
    | none => exact Tag.decodes_read.map (fun tag => (some tag, others)) v hend
  · rw [if_neg hkey, if_neg hkey]
    change (anyMember (value nesting) others key (':' :: (v.chars ++ tail)) >>= _).toOption = _
    rw [toOption_bind, decodesMember_anyMember (decodes_value nesting) others key v hend]
    dsimp only
    cases reread nesting v <;> rfl

/-- The decoder of a node. -/
def decode : Json → Option Node
  | .object members =>
    (members.foldlM collect (none, [])).bind fun read =>
      read.1.bind fun tag => (tag.ofMembers (memberParts read.2.reverse)).toOption
  | .array (first :: rest) =>
    (Tag.decode first).bind fun tag =>
      (rest.mapM (reread nesting)).bind fun items => (tag.ofItems (parts items)).toOption
  | _ => none

theorem toOption_placed (checked : Except Cause Node) (rest : List Char) :
    (placed checked rest).toOption = checked.toOption.map (·, rest) := by
  cases checked <;> rfl

theorem decodes_read : Decodes Node.read Node.decode := by
  intro v tail hend
  rcases v.bracket_cases with ⟨members, rfl⟩ | ⟨items, rfl⟩ | hleaf
  · rw [chars_object]
    change (Json.members readMember (none, []) (objectBody members ++ tail) >>= _).toOption = _
    rw [toOption_bind, toOption_members decodesMember_readMember, Option.bind_map, decode]
    cases members.foldlM collect (none, []) with
    | none => rfl
    | some read =>
      obtain ⟨tag, others⟩ := read
      cases tag with
      | none => rfl
      | some tag => exact toOption_placed _ tail
  · rw [chars_array]
    cases items with
    | nil => rfl
    | cons first rest =>
      have hlength : rest.length < (itemChars rest ++ ']' :: tail).length := by
        have hcommas := length_le_itemChars rest
        rw [List.length_append, List.length_cons]
        omega
      rw [List.cons_append, listBody_cons_append]
      change (nextItem true (first.chars ++ (itemChars rest ++ ']' :: tail)) >>= _).toOption = _
      rw [nextItem_first]
      change (Tag.read (first.chars ++ (itemChars rest ++ ']' :: tail)) >>= _).toOption = _
      refine (Tag.decodes_read.bind (ends_itemChars rest tail) first _).trans ?_
      rw [decode]
      cases Tag.decode first with
      | none => rfl
      | some tag =>
        refine (toOption_bind _ _).trans ?_
        rw [toOption_itemsFrom (decodes_value nesting) hlength]
        cases rest.mapM (reread nesting) with
        | none => rfl
        | some items => exact toOption_placed _ tail
  · have hnone : decode v = none := by
      cases v with
      | array items => rw [depth] at hleaf; cases hleaf
      | object members => rw [depth] at hleaf; cases hleaf
      | _ => rfl
    obtain ⟨c, rest, hstart⟩ := exists_startsWith v
    obtain ⟨hlist, hobject⟩ := hstart.of_leaf hleaf
    rw [hnone, hstart.chars, List.cons_append, Node.read, skipBlanks_cons hstart.blank]
    split
    · next heq => cases heq
    · next heq => cases heq; exact absurd rfl hlist
    · next heq => cases heq; exact absurd rfl hobject
    · rfl

end Node

/-! ## Documents -/

/-- The decoder of a document. -/
def Document.decode : Json → Option Document :=
  Document.form.decode (Form.halves "program" (list? Node.decode) Store.decode)

theorem Document.decodes_readStart : Decodes Document.readStart Document.decode :=
  Form.decodes_read (by decide) fun _ _ _ =>
    Form.decodes_halves (decodes_readList Node.decodes_read) Store.decodes_read _ _ _

/-- **The text of a tree is a document exactly if the tree is**, and then the same. -/
theorem Document.ofText_text_eq_ok_iff {tree : Json} {document : Document} :
    Document.ofText tree.text = .ok document ↔ Document.decode tree = some document := by
  have hread := Document.decodes_readStart tree ends_nil
  have hall : (Document.readAll tree.chars).toOption = Document.decode tree := by
    rw [Document.readAll, toOption_bind]
    rw [List.append_nil] at hread
    rw [hread]
    cases Document.decode tree <;> rfl
  rw [← hall, Document.ofText, Json.text, String.toList_ofList]
  cases Document.readAll tree.chars with
  | ok found => simp [Except.toOption]
  | error fault => simp [Except.toOption]

end NetScribe
