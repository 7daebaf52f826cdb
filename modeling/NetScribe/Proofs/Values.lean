import NetScribe.Proofs.Numerals

/-!
# Values in a text

The compact text of a value is read as the value again (`reads_value`), whatever ends it. Strings
are read character by character: each is written so that one step of the reader takes it
(`stringFrom_escapeChar`). Lists and objects are read by loops. What an item or a member is read as
is left to its own reader, so the loops serve values of every kind: `items_listBody` for lists, and
for objects `Steps`, which follows what the members make of a start one by one. The rounds of a
loop are bounded by the text, and a text has more characters than items.
-/

namespace NetScribe.Json

/-! ## Strings -/

/-- A control character is written as four digits that stand for it. -/
theorem hexChars_small : ∀ n < 0x20,
    hexChars n = ['0', '0', Nat.digitChar (n / 16), Nat.digitChar (n % 16)] ∧
      hex4? '0' '0' (Nat.digitChar (n / 16)) (Nat.digitChar (n % 16)) = some n := by
  decide

/-- An escaped character is read as the character. -/
theorem stringFrom_escapeChar (read : List Char) (c : Char) (tail : List Char) :
    stringFrom read (escapeChar c ++ tail) = stringFrom (c :: read) tail := by
  unfold escapeChar
  split
  -- the seven characters with an escape of their own
  · rfl
  · rfl
  · rfl
  · rfl
  · rfl
  · rfl
  · rfl
  · next hquote hbackslash _ _ _ _ _ =>
    split
    · next hcontrol =>
      obtain ⟨hdigits, hvalue⟩ := hexChars_small c.toNat hcontrol
      -- no half of a pair: the reader waits for no second escape
      have htrail : isTrail c.toNat = false := by simp [isTrail]; omega
      have hlead : isLead c.toNat = false := by simp [isLead]; omega
      simp only [hdigits, List.cons_append, List.nil_append]
      rw [stringFrom]
      simp only [hvalue, htrail, hlead, Char.ofNat_toNat]
      simp
    · next hplain =>
      rw [List.singleton_append, stringFrom, if_neg hplain]
      · exact hquote
      · exact hbackslash

/-- What is written between quotes is read up to the closing one. -/
theorem stringFrom_escaped (read text rest : List Char) :
    stringFrom read (text.flatMap escapeChar ++ '"' :: rest) =
      .ok (read.reverse ++ text, rest) := by
  induction text generalizing read with
  | nil => simp [stringFrom]
  | cons c letters ih =>
    rw [List.flatMap_cons, List.append_assoc, stringFrom_escapeChar, ih]
    simp

theorem stringBody_escaped (text : String) (rest : List Char) :
    stringBody (text.toList.flatMap escapeChar ++ '"' :: rest) = .ok (text, rest) := by
  rw [stringBody, stringFrom_escaped]
  simp [Except.map]

variable {α σ : Type}

/-- A reader reads a text as a value, whatever ends it. -/
def Reads (reader : Reader α) (text : List Char) (a : α) : Prop :=
  ∀ ⦃tail⦄, Ends tail → reader (text ++ tail) = .ok (a, tail)

/-! ## How texts start -/

theorem skipBlanks_cons {c : Char} (h : isBlank c = false) (rest : List Char) :
    skipBlanks (c :: rest) = c :: rest := by
  rw [skipBlanks, List.dropWhile_cons_of_neg (by simp [h])]

/-- A character a value starts with: neither a blank nor a closing bracket. -/
def Starts (c : Char) : Prop := isBlank c = false ∧ c ≠ ']'

instance (c : Char) : Decidable (Starts c) := inferInstanceAs (Decidable (_ ∧ _))

theorem starts_of_isFloatChar {c : Char} (h : isFloatChar c = true) : Starts c := by
  constructor
  · by_contra hblank
    simp only [isBlank, Bool.not_eq_false, Bool.or_eq_true, beq_iff_eq] at hblank
    rcases hblank with ((rfl | rfl) | rfl) | rfl <;> cases h
  · rintro rfl
    cases h

/-- **The text of a value starts with a character of its own.** -/
theorem chars_start (value : Json) : ∃ c rest, value.chars = c :: rest ∧ Starts c := by
  cases value with
  | null => exact ⟨'n', _, rfl, by decide⟩
  | bool value =>
    cases value with
    | true => exact ⟨'t', _, rfl, by decide⟩
    | false => exact ⟨'f', _, rfl, by decide⟩
  | integer i =>
    rw [chars, integerChars]
    cases hdigits : Nat.toDigits 10 i.natAbs with
    | nil => exact absurd hdigits Nat.toDigits_ne_nil
    | cons c rest =>
      split
      · exact ⟨'-', _, rfl, by decide⟩
      · have hc : c ∈ Nat.toDigits 10 i.natAbs := hdigits ▸ List.mem_cons_self
        exact ⟨c, rest, rfl, starts_of_isFloatChar (isFloatChar_digits hc)⟩
  | float x =>
    by_cases hfinite : x.isFinite = true
    · obtain ⟨point, hpoint, -⟩ := not_digit_mem_floatChars hfinite
      have hchars := isFloatChar_floatChars hfinite
      rw [chars]
      cases htext : floatChars x with
      | nil =>
        rw [htext] at hpoint
        cases hpoint
      | cons c rest =>
        rw [htext] at hchars
        exact ⟨c, rest, rfl, starts_of_isFloatChar (hchars c List.mem_cons_self)⟩
    · -- infinities and what is no number are written as null
      refine ⟨'n', ['u', 'l', 'l'], ?_, by decide⟩
      simp [chars, floatChars, hfinite]
  | string text => exact ⟨'"', _, rfl, by decide⟩
  | array items =>
    cases items with
    | nil => exact ⟨'[', _, rfl, by decide⟩
    | cons first rest => exact ⟨'[', _, rfl, by decide⟩
  | object members =>
    cases members with
    | nil => exact ⟨'\x7b', _, rfl, by decide⟩
    | cons first rest => exact ⟨'\x7b', _, rfl, by decide⟩

/-! ## Loops -/

/-- The text of a list behind its opening bracket. -/
def listBody : List Json → List Char
  | [] => [']']
  | first :: rest => chars first ++ itemChars rest ++ [']']

theorem chars_array (items : List Json) : (array items).chars = '[' :: listBody items := by
  cases items <;> simp [chars, listBody]

/-- The text of an object behind its opening bracket. -/
def objectBody : List (String × Json) → List Char
  | [] => ['\x7d']
  | (key, value) :: rest =>
    stringChars key ++ ':' :: chars value ++ memberChars rest ++ ['\x7d']

theorem chars_object (members : List (String × Json)) :
    (object members).chars = '\x7b' :: objectBody members := by
  cases members <;> simp [chars, objectBody]

theorem ends_itemChars (items : List Json) (tail : List Char) :
    Ends (itemChars items ++ ']' :: tail) := by
  cases items <;> simp [itemChars, ends_cons]

theorem ends_memberChars (members : List (String × Json)) (tail : List Char) :
    Ends (memberChars members ++ '\x7d' :: tail) := by
  cases members <;> simp [memberChars, ends_cons]

theorem nextItem_end (first : Bool) (rest : List Char) :
    nextItem first (']' :: rest) = .ok (false, ']' :: rest) := rfl

theorem nextItem_first (value : Json) (rest : List Char) :
    nextItem true (value.chars ++ rest) = .ok (true, value.chars ++ rest) := by
  obtain ⟨c, letters, hchars, hblank, hclose⟩ := chars_start value
  rw [hchars, List.cons_append, nextItem, skipBlanks_cons hblank]
  simp

theorem nextItem_comma (value : Json) (rest : List Char) :
    nextItem false (',' :: (value.chars ++ rest)) = .ok (true, value.chars ++ rest) := by
  obtain ⟨c, letters, hchars, hblank, hclose⟩ := chars_start value
  have hcomma : isBlank ',' = false := rfl
  rw [hchars, List.cons_append, nextItem, skipBlanks_cons hcomma]
  simp [skipBlanks_cons hblank, hclose]

variable {item : Reader α} {encode : α → Json}

/-- The items behind the first are read up to the closing bracket. -/
theorem itemsFrom_itemChars {list : List α} (h : ∀ a ∈ list, Reads item (encode a).chars a)
    {bound : List Char} (hbound : list.length < bound.length) (read : List α) (tail : List Char) :
    itemsFrom item bound false read (itemChars (list.map encode) ++ ']' :: tail) =
      .ok (read.reverse ++ list, ']' :: tail) := by
  induction list generalizing bound read with
  | nil =>
    cases bound with
    | nil => cases hbound
    | cons _ bound => simp [itemsFrom, itemChars, nextItem_end, bind, Except.bind]
  | cons a rest ih =>
    obtain ⟨ha, hrest⟩ := List.forall_mem_cons.mp h
    cases bound with
    | nil => cases hbound
    | cons _ bound =>
      have hread := ha (ends_itemChars (rest.map encode) tail)
      have hlength : rest.length < bound.length := by simpa using hbound
      simp only [itemsFrom, List.map_cons, itemChars, List.cons_append, List.append_assoc,
        nextItem_comma, bind, Except.bind, if_true, hread, ih hrest hlength]
      simp

/-- A list has fewer items than characters. -/
theorem length_lt_listBody (items : List Json) : items.length < (listBody items).length := by
  have hcommas : ∀ items : List Json, items.length ≤ (itemChars items).length := by
    intro items
    induction items with
    | nil => exact Nat.le_refl _
    | cons item rest ih =>
      simp only [itemChars, List.cons_append, List.length_cons, List.length_append]
      omega
  cases items with
  | nil => exact Nat.zero_lt_one
  | cons first rest =>
    obtain ⟨c, letters, hchars, -⟩ := chars_start first
    have hrest := hcommas rest
    simp only [listBody, hchars, List.cons_append, List.length_cons, List.length_append]
    omega

theorem itemsFrom_listBody {list : List α} (h : ∀ a ∈ list, Reads item (encode a).chars a)
    {bound : List Char} (hbound : list.length < bound.length) (tail : List Char) :
    itemsFrom item bound true [] (listBody (list.map encode) ++ tail) =
      .ok (list, ']' :: tail) := by
  cases bound with
  | nil => cases hbound
  | cons _ bound =>
    cases list with
    | nil => rfl
    | cons a rest =>
      obtain ⟨ha, hrest⟩ := List.forall_mem_cons.mp h
      have hlength : rest.length < bound.length := by simpa using hbound
      have hbody : listBody ((a :: rest).map encode) ++ tail =
          (encode a).chars ++ (itemChars (rest.map encode) ++ ']' :: tail) := by
        simp [listBody]
      rw [hbody, itemsFrom, nextItem_first]
      change (item ((encode a).chars ++ (itemChars (rest.map encode) ++ ']' :: tail)) >>= _) = _
      rw [ha (ends_itemChars (rest.map encode) tail)]
      exact itemsFrom_itemChars hrest hlength [a] tail

/-- **Items that are read are read as a list.** -/
theorem items_listBody {list : List α} (h : ∀ a ∈ list, Reads item (encode a).chars a)
    (tail : List Char) :
    items item (listBody (list.map encode) ++ tail) = .ok (list, tail) := by
  have hbound : list.length < (listBody (list.map encode) ++ tail).length := by
    have hlength := length_lt_listBody (list.map encode)
    rw [List.length_map] at hlength
    rw [List.length_append]
    omega
  rw [items, itemsFrom_listBody h hbound]
  rfl

theorem stringChars_append (key : String) (rest : List Char) :
    stringChars key ++ rest = '"' :: (key.toList.flatMap escapeChar ++ '"' :: rest) := by
  simp [stringChars]

theorem nextKey_first (key : String) (rest : List Char) :
    nextKey true (stringChars key ++ rest) = .ok (some key, rest) := by
  rw [stringChars_append]
  change (stringBody _).map _ = _
  rw [stringBody_escaped]
  rfl

theorem nextKey_comma (key : String) (rest : List Char) :
    nextKey false (',' :: (stringChars key ++ rest)) = .ok (some key, rest) := by
  rw [stringChars_append]
  change (stringBody _).map _ = _
  rw [stringBody_escaped]
  rfl

/-- What reading members one by one makes of a start. -/
inductive Steps (member : σ → String → Reader σ) : σ → List (String × Json) → σ → Prop
  | nil (s : σ) : Steps member s [] s
  | cons {s next last : σ} {key : String} {value : Json} {rest : List (String × Json)} :
      Reads (member s key) (':' :: value.chars) next → Steps member next rest last →
      Steps member s ((key, value) :: rest) last

variable {member : σ → String → Reader σ} {start last : σ} {list : List (String × Json)}

/-- The members behind the first are read up to the closing bracket. -/
theorem Steps.membersFrom_memberChars (h : Steps member start list last) {bound : List Char}
    (hbound : list.length < bound.length) (tail : List Char) :
    membersFrom member bound false start (memberChars list ++ '\x7d' :: tail) =
      .ok (last, '\x7d' :: tail) := by
  induction h generalizing bound with
  | nil s =>
    cases bound with
    | nil => cases hbound
    | cons _ bound => rfl
  | @cons s next last key value rest hmember hrest ih =>
    cases bound with
    | nil => cases hbound
    | cons _ bound =>
      have hlength : rest.length < bound.length := by simpa using hbound
      have htext : memberChars ((key, value) :: rest) ++ '\x7d' :: tail =
          ',' :: (stringChars key ++
            (':' :: value.chars ++ (memberChars rest ++ '\x7d' :: tail))) := by
        simp [memberChars]
      rw [htext, membersFrom, nextKey_comma]
      change (member s key (':' :: value.chars ++ (memberChars rest ++ '\x7d' :: tail)) >>= _) = _
      rw [hmember (ends_memberChars rest tail)]
      exact ih hlength

/-- An object has fewer members than characters. -/
theorem length_lt_objectBody (members : List (String × Json)) :
    members.length < (objectBody members).length := by
  have hcommas : ∀ members : List (String × Json),
      members.length ≤ (memberChars members).length := by
    intro members
    induction members with
    | nil => exact Nat.le_refl _
    | cons member rest ih =>
      simp only [memberChars, List.cons_append, List.length_cons, List.length_append]
      omega
  cases members with
  | nil => exact Nat.zero_lt_one
  | cons first rest =>
    have hrest := hcommas rest
    simp only [objectBody, List.length_cons, List.length_append]
    omega

theorem Steps.membersFrom_objectBody (h : Steps member start list last) {bound : List Char}
    (hbound : list.length < bound.length) (tail : List Char) :
    membersFrom member bound true start (objectBody list ++ tail) = .ok (last, '\x7d' :: tail) := by
  cases bound with
  | nil => cases hbound
  | cons _ bound =>
    cases h with
    | nil => rfl
    | @cons _ next _ key value rest hmember hrest =>
      have hlength : rest.length < bound.length := by simpa using hbound
      have hbody : objectBody ((key, value) :: rest) ++ tail =
          stringChars key ++ (':' :: value.chars ++ (memberChars rest ++ '\x7d' :: tail)) := by
        simp [objectBody]
      rw [hbody, membersFrom, nextKey_first]
      change (member start key
        (':' :: value.chars ++ (memberChars rest ++ '\x7d' :: tail)) >>= _) = _
      rw [hmember (ends_memberChars rest tail)]
      exact hrest.membersFrom_memberChars hlength tail

/-- **Members that are read in turn are read as an object.** -/
theorem Steps.members_objectBody (h : Steps member start list last) (tail : List Char) :
    members member start (objectBody list ++ tail) = .ok (last, '\x7d' :: tail) := by
  refine h.membersFrom_objectBody ?_ tail
  have hlength := length_lt_objectBody list
  rw [List.length_append]
  omega

/-! ## Values -/

mutual

/-- How many brackets of a value are around one another. -/
def depth : Json → Nat
  | .array items => depthItems items + 1
  | .object members => depthMembers members + 1
  | _ => 0

/-- The most brackets of any item. -/
def depthItems : List Json → Nat
  | [] => 0
  | item :: rest => max (depth item) (depthItems rest)

/-- The most brackets of any member. -/
def depthMembers : List (String × Json) → Nat
  | [] => 0
  | (_, value) :: rest => max (depth value) (depthMembers rest)

end

theorem depth_le_depthItems {items : List Json} {item : Json} (h : item ∈ items) :
    item.depth ≤ depthItems items := by
  induction items with
  | nil => cases h
  | cons first rest ih =>
    rw [depthItems]
    rcases List.mem_cons.mp h with rfl | hrest
    · omega
    · have := ih hrest
      omega

theorem depth_le_depthMembers {members : List (String × Json)} {member : String × Json}
    (h : member ∈ members) : member.2.depth ≤ depthMembers members := by
  induction members with
  | nil => cases h
  | cons first rest ih =>
    obtain ⟨key, value⟩ := first
    rw [depthMembers]
    rcases List.mem_cons.mp h with rfl | hrest
    · exact Nat.le_max_left _ _
    · have := ih hrest
      omega

/-- A value without integers whose other numbers read back. -/
inductive Readable : Json → Prop
  | null : Readable .null
  | bool (value : Bool) : Readable (.bool value)
  | float {x : Binary64} : x.ReadsBack → Readable (.float x)
  | string (text : String) : Readable (.string text)
  | array {items : List Json} : (∀ item ∈ items, Readable item) → Readable (.array items)
  | object {members : List (String × Json)} :
      (∀ member ∈ members, Readable member.2) → Readable (.object members)

theorem scalar?_digit {c : Char} (h : isDigit c = true) (rest : List Char) :
    scalar? c rest = some (number false (c :: rest)) := by
  unfold scalar?
  split
  · cases h
  · cases h
  · cases h
  · cases h
  · cases h
  · exact if_pos h

/-- A number is read without regard to brackets. -/
theorem valueWith_digit (inner : Option (Reader Json)) {c : Char} (h : isDigit c = true)
    (rest : List Char) : valueWith inner (c :: rest) = number false (c :: rest) := by
  have hblank : isBlank c = false := (starts_of_isFloatChar (by simp [isFloatChar, h])).1
  rw [valueWith, skipBlanks_cons hblank]
  split
  · next heq => cases heq
  · next heq => cases heq; cases h
  · next heq => cases heq; cases h
  · next heq =>
    cases heq
    rw [scalar?_digit h]
    rfl

theorem reads_anyMember {value : Reader Json} {v : Json} (h : Reads value v.chars v)
    (read : List (String × Json)) (key : String) :
    Reads (anyMember value read key) (':' :: v.chars) ((key, v) :: read) := by
  intro tail hend
  change (value (v.chars ++ tail) >>= _) = _
  rw [h hend]
  rfl

/-- Members with any values are collected, the last one in front. -/
theorem steps_anyMember {value : Reader Json} {members : List (String × Json)}
    (h : ∀ member ∈ members, Reads value member.2.chars member.2) (read : List (String × Json)) :
    Steps (anyMember value) read members (members.reverse ++ read) := by
  induction members generalizing read with
  | nil => exact .nil read
  | cons member rest ih =>
    obtain ⟨key, v⟩ := member
    obtain ⟨hvalue, hrest⟩ := List.forall_mem_cons.mp h
    rw [List.reverse_cons, List.append_assoc]
    exact .cons (reads_anyMember hvalue read key) (ih hrest ((key, v) :: read))

theorem reads_float (inner : Option (Reader Json)) {x : Binary64} (h : x.ReadsBack) :
    Reads (valueWith inner) (floatChars x) (.float x) := by
  intro tail hend
  rcases number_of_readsBack h with ⟨rest, hchars, hnumber⟩ | ⟨c, rest, hchars, hdigit, hnumber⟩
  · rw [hchars]
    exact stops_number true hnumber hend
  · rw [hchars, List.cons_append, valueWith_digit inner hdigit]
    exact stops_number false hnumber hend

theorem reads_string (inner : Option (Reader Json)) (text : String) :
    Reads (valueWith inner) (stringChars text) (.string text) := by
  intro tail hend
  rw [stringChars_append]
  change (stringBody _).map _ = _
  rw [stringBody_escaped]
  rfl

/-- **The text of a value is read as the value**, if its numbers read back and its brackets are
allowed. -/
theorem reads_value {j : Json} (h : Readable j) :
    ∀ n, j.depth ≤ n → Reads (value n) j.chars j := by
  induction h with
  | null =>
    intro n _ tail _
    cases n <;> rfl
  | bool b =>
    intro n _ tail _
    cases b <;> cases n <;> rfl
  | float hx =>
    intro n _
    cases n with
    | zero => exact reads_float none hx
    | succ n => exact reads_float (some (value n)) hx
  | string text =>
    intro n _
    cases n with
    | zero => exact reads_string none text
    | succ n => exact reads_string (some (value n)) text
  | @array list _ ih =>
    intro n hn tail _
    rw [depth] at hn
    -- the bracket itself takes one of those allowed
    obtain ⟨m, rfl⟩ : ∃ m, n = m + 1 := ⟨n - 1, by omega⟩
    have hitems : ∀ item ∈ list, Reads (value m) (id item).chars item := by
      intro item hitem
      have hdepth := depth_le_depthItems hitem
      exact ih item hitem m (by omega)
    have hlist := items_listBody hitems tail
    rw [List.map_id] at hlist
    rw [chars_array]
    change (items (value m) (listBody list ++ tail)).map _ = _
    rw [hlist]
    rfl
  | @object list _ ih =>
    intro n hn tail _
    rw [depth] at hn
    obtain ⟨m, rfl⟩ : ∃ m, n = m + 1 := ⟨n - 1, by omega⟩
    have hmembers : ∀ member ∈ list, Reads (value m) member.2.chars member.2 := by
      intro member hmember
      have hdepth := depth_le_depthMembers hmember
      exact ih member hmember m (by omega)
    have hobject := (steps_anyMember hmembers []).members_objectBody tail
    rw [List.append_nil] at hobject
    rw [chars_object]
    change (members (anyMember (value m)) [] (objectBody list ++ tail) >>= _) = _
    rw [hobject]
    change Except.ok (Json.object list.reverse.reverse, tail) = _
    rw [List.reverse_reverse]

end NetScribe.Json
