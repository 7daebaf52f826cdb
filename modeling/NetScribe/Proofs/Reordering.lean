import Mathlib.Logic.Relation
import NetScribe.Proofs.Members

/-!
# The order of members

The members of an object are fields of a record, except in the two tables of the resources, where
they are entries, and a later entry replaces an earlier one for the same file. A `Place` says where
in a document a value stands, as far as it takes to tell the tables. One step of reordering puts the
members of one object outside the tables into another order (`Reorders`), at any depth, below the
tables and in members that nobody reads too.

What is read from a value does not change in one step (`ReadsAlike` for values that are there as a
whole, `Blind` for those read as they come), hence not in any number of them.
-/

namespace NetScribe

open Json

/-! ## Reordering -/

/-- Where in a document a value stands. -/
inductive Place where
  | document
  | resources
  /-- One of the tables of the resources. -/
  | table
  | elsewhere
  deriving DecidableEq

namespace Place

/-- Where the value of a member stands. -/
def member (place : Place) (key : String) : Place :=
  match place with
  | .document => if key = "resources" then .resources else .elsewhere
  | .resources => if key = "models" ∨ key = "datasets" then .table else .elsewhere
  | _ => .elsewhere

/-- Where an item stands; a record may be written as the list of its fields. -/
def item (place : Place) (index : Nat) : Place :=
  match place with
  | .document => if index = 1 then .resources else .elsewhere
  | .resources => .table
  | _ => .elsewhere

end Place

/-- The members of one object, no table, are put into another order. -/
inductive Reorders : Place → Json → Json → Prop where
  | members {place : Place} {members members' : List (String × Json)} (hplace : place ≠ .table)
      (hperm : members.Perm members') : Reorders place (.object members) (.object members')
  | item {place : Place} (front : List Json) {v v' : Json} (back : List Json)
      (h : Reorders (place.item front.length) v v') :
      Reorders place (.array (front ++ v :: back)) (.array (front ++ v' :: back))
  | member {place : Place} (front : List (String × Json)) (key : String) {v v' : Json}
      (back : List (String × Json)) (h : Reorders (place.member key) v v') :
      Reorders place (.object (front ++ (key, v) :: back)) (.object (front ++ (key, v') :: back))

/-- The members of any objects, no tables, are put into other orders. -/
def Reordered (place : Place) : Json → Json → Prop :=
  Relation.ReflTransGen (Reorders place)

/-!
## Values that are there as a whole

Below a node every value is there before a field takes from it what it needs.
One congruence for each way a step of reordering goes down (`readsAlike_members`, `ReadsAlike.item`,
`ReadsAlike.member`) is all that the induction over a step takes.
-/

/-- The same can be read from two values. -/
structure ReadsAlike (v v' : Json) : Prop where
  text : text? v = text? v'
  number : v.asNumber.toOption = v'.asNumber.toOption
  numbers : v.asNumbers.toOption = v'.asNumbers.toOption
  binding : v.asBinding?.toOption = v'.asBinding?.toOption
  tag : (Tag.ofValue v).toOption = (Tag.ofValue v').toOption
  node : v.asNode.toOption = v'.asNode.toOption
  nodes : v.asNodes.toOption = v'.asNodes.toOption

theorem ReadsAlike.part {v v' : Json} (h : ReadsAlike v v') : v.part.Alike v'.part := by
  intro key
  simp only [NodeField.ofPart?, Json.part, toOption_asText, toOption_asPath, h.text, h.numbers,
    h.binding, h.nodes]

/-- Take up a field of a binding. -/
def Binding.take : String → Option String × Option String → Json →
    Option (Option String × Option String) :=
  Form.halves "type_name" text? text?

theorem Binding.toOption_set : (fun field draft v => (Binding.set field draft v).toOption) =
    Binding.take := by
  funext field draft v
  rw [set, toOption_bind, toOption_asText, take, Form.halves]
  cases text? v <;> by_cases hfield : field = "type_name" <;> simp [hfield, Except.toOption]

theorem Binding.lawful : Binding.form.Lawful take :=
  Form.lawful_halves rfl (by decide) (fun _ _ => rfl) text? text?

theorem toOption_asBinding?_object (members : List (String × Json)) :
    (asBinding? (.object members)).toOption =
      (Binding.form.gather Binding.take members).map some := by
  rw [asBinding?, toOption_map, Form.toOption_ofMembers, Binding.toOption_set]

theorem toOption_asBinding?_array (items : List Json) :
    (asBinding? (.array items)).toOption = (Binding.form.fill Binding.take items).map some := by
  rw [asBinding?, toOption_map, Form.toOption_ofItems, Binding.toOption_set]

theorem toOption_asNode_object (members : List (String × Json)) :
    (asNode (.object members)).toOption =
      Tag.assemble (fun part => (Tag.ofValue part.value).toOption) some
        (members.map fun member => (member.1, member.2.part)) := by
  rw [asNode, Tag.toOption_nodeOfMembers, memberParts_eq_map]

theorem toOption_ofItems_parts (tag : Tag) (items : List Json) :
    (tag.ofItems (parts items)).toOption = tag.form.fill Tag.take (items.map Json.part) := by
  rw [Tag.ofItems, Form.toOption_ofItems, parts_eq_map]
  rfl

theorem toOption_asNode_array (first : Json) (rest : List Json) :
    (asNode (.array (first :: rest))).toOption =
      (Tag.ofValue first).toOption.bind fun tag =>
        tag.form.fill Tag.take (rest.map Json.part) := by
  rw [asNode, parts, Tag.nodeOfItems, toOption_bind]
  simp only [toOption_ofItems_parts]

theorem toOption_mapM {α ι ε : Type} (f : ι → Except ε α) (list : List ι) :
    (list.mapM f).toOption = list.mapM fun i => (f i).toOption := by
  induction list with
  | nil => rfl
  | cons i rest ih =>
    rw [List.mapM_cons, List.mapM_cons, toOption_bind]
    cases f i with
    | error e => rfl
    | ok a =>
      refine (toOption_bind _ _).trans ?_
      rw [ih]
      rfl

theorem toOption_asNodes_array (items : List Json) :
    (asNodes (.array items)).toOption = items.mapM fun item => item.asNode.toOption := by
  rw [asNodes, ← toOption_mapM]
  congr 1
  induction items with
  | nil => rfl
  | cons item rest ih =>
    rw [nodeList, ih, List.mapM_cons]
    rfl

/-- A part may be replaced by another that is like it. -/
theorem ReadsAlike.fill_replace {v v' : Json} (h : ReadsAlike v v') (tag : Tag)
    (front back : List Json) :
    tag.form.fill Tag.take ((front ++ v :: back).map Json.part) =
      tag.form.fill Tag.take ((front ++ v' :: back).map Json.part) := by
  rw [List.map_append, List.map_append, List.map_cons, List.map_cons]
  refine Form.fill_replace ?_ _
  intro field hfield draft
  exact h.part.take_eq (List.mem_of_getElem? hfield) draft

/-- The members of an object may change places. -/
theorem readsAlike_members {members members' : List (String × Json)} (h : members.Perm members') :
    ReadsAlike (.object members) (.object members') := by
  refine ⟨rfl, rfl, rfl, ?_, rfl, ?_, rfl⟩
  · rw [toOption_asBinding?_object, toOption_asBinding?_object, Binding.lawful.gather_perm h]
  · rw [toOption_asNode_object, toOption_asNode_object, Tag.assemble_perm (h.map _)]

theorem ReadsAlike.take_binding {v v' : Json} (h : ReadsAlike v v') (field : String)
    (draft : Option String × Option String) :
    Binding.take field draft v = Binding.take field draft v' := by
  rw [Binding.take, Form.halves, Form.halves, h.text]

/-- An item may be replaced. -/
theorem ReadsAlike.item {v v' : Json} (h : ReadsAlike v v') (front back : List Json) :
    ReadsAlike (.array (front ++ v :: back)) (.array (front ++ v' :: back)) := by
  refine ⟨rfl, rfl, ?_, ?_, rfl, ?_, ?_⟩
  · rw [asNumbers, asNumbers, toOption_mapM, toOption_mapM]
    exact mapM_replace (fun v => v.asNumber.toOption) h.number front back
  · rw [toOption_asBinding?_array, toOption_asBinding?_array,
      Form.fill_replace fun field _ => h.take_binding field]
  · -- the first item is the tag, and the others are fields
    cases front with
    | nil =>
      rw [List.nil_append, List.nil_append, toOption_asNode_array, toOption_asNode_array, h.tag]
    | cons first front =>
      rw [List.cons_append, List.cons_append, toOption_asNode_array, toOption_asNode_array]
      simp only [h.fill_replace]
  · rw [toOption_asNodes_array, toOption_asNodes_array]
    exact mapM_replace (fun v => v.asNode.toOption) h.node front back

/-- The value of a member may be replaced. -/
theorem ReadsAlike.member {v v' : Json} (h : ReadsAlike v v') (key : String)
    (front back : List (String × Json)) :
    ReadsAlike (.object (front ++ (key, v) :: back)) (.object (front ++ (key, v') :: back)) := by
  refine ⟨rfl, rfl, rfl, ?_, rfl, ?_, rfl⟩
  · rw [toOption_asBinding?_object, toOption_asBinding?_object,
      Binding.lawful.gather_replace fun _ => h.take_binding key]
  · rw [toOption_asNode_object, toOption_asNode_object, List.map_append, List.map_append,
      List.map_cons, List.map_cons]
    refine Tag.assemble_replace ?_ ?_ key _ _
    · exact h.tag
    · exact .some h.part

/-! ## Values that are read again -/

/-- Values in another order give their results in another order. -/
theorem mapM_perm {α ι : Type} (f : ι → Option α) {list list' : List ι} (h : list.Perm list') :
    Option.Rel List.Perm (list.mapM f) (list'.mapM f) := by
  induction h with
  | nil => exact .some .nil
  | @cons i rest rest' _ ih =>
    rw [List.mapM_cons, List.mapM_cons]
    cases f i with
    | none => exact .none
    | some a =>
      generalize rest.mapM f = found, rest'.mapM f = found' at ih ⊢
      cases ih with
      | none => exact .none
      | some h => exact .some (h.cons a)
  | swap i j rest =>
    simp only [List.mapM_cons]
    cases f i with
    | none => cases f j <;> exact .none
    | some a =>
      cases f j with
      | none => exact .none
      | some b =>
        cases rest.mapM f with
        | none => exact .none
        | some found => exact .some (.swap a b found)
  | trans _ _ ih₁ ih₂ => exact rel_trans (List.Perm.eqv α) ih₁ ih₂

/-- Two lists differ in one place, and there only so much. -/
def DifferOnce {α : Type} (R : α → α → Prop) (list list' : List α) : Prop :=
  ∃ front a b back, R a b ∧ list = front ++ a :: back ∧ list' = front ++ b :: back

theorem mapM_differOnce {α ι : Type} {f : ι → Option α} {R : α → α → Prop} {i j : ι}
    (h : Option.Rel R (f i) (f j)) (front back : List ι) :
    Option.Rel (DifferOnce R) ((front ++ i :: back).mapM f) ((front ++ j :: back).mapM f) := by
  rw [List.mapM_append, List.mapM_append, List.mapM_cons, List.mapM_cons]
  cases front.mapM f with
  | none => exact .none
  | some found =>
    generalize f i = a, f j = b at h ⊢
    cases h with
    | none => exact .none
    | some hab =>
      cases back.mapM f with
      | none => exact .none
      | some found' => exact .some ⟨found, _, _, found', hab, rfl, rfl⟩

/-- **The same can be read from a value whatever the order of its members**, after it was read
itself. -/
theorem Reorders.readsAlike_reread {place : Place} {v v' : Json} (h : Reorders place v v')
    (n : Nat) : Option.Rel ReadsAlike (reread n v) (reread n v') := by
  -- a bracket beyond the limit is refused on both sides, whatever is in it
  induction h generalizing n with
  | members _ hperm =>
    cases n with
    | zero => rw [reread, reread, leaf?_object, leaf?_object]; exact .none
    | succ n => exact rel_map (mapM_perm _ hperm) fun _ _ h => readsAlike_members h
  | item front back _ ih =>
    cases n with
    | zero => rw [reread, reread, leaf?_array, leaf?_array]; exact .none
    | succ n =>
      refine rel_map (mapM_differOnce (ih n) front back) ?_
      rintro _ _ ⟨front, v, v', back, halike, rfl, rfl⟩
      exact halike.item front back
  | member front key back _ ih =>
    cases n with
    | zero => rw [reread, reread, leaf?_object, leaf?_object]; exact .none
    | succ n =>
      have hmember :
          Option.Rel (fun m m' : String × Json => m.1 = m'.1 ∧ ReadsAlike m.2 m'.2) _ _ :=
        rel_map (f := fun v => (key, v)) (ih n) fun _ _ h => ⟨rfl, h⟩
      refine rel_map (mapM_differOnce
        (f := fun member => (reread n member.2).map (member.1, ·)) hmember front back) ?_
      rintro _ _ ⟨front, ⟨key, v⟩, ⟨_, v'⟩, back, ⟨rfl, halike⟩, rfl, rfl⟩
      exact halike.member _ front back

/-! ## Values that are read as they come -/

/-- A decoder does not see an order of members. -/
def Blind {α : Type} (place : Place) (decode : Json → Option α) : Prop :=
  ∀ ⦃v v'⦄, Reorders place v v' → decode v = decode v'

section Blind

variable {α : Type} {place : Place} {decode : Json → Option α}

theorem blind_text : Blind place text? := by
  intro v v' h
  cases h <;> rfl

theorem blind_number : Blind place number? := by
  intro v v' h
  cases h <;> simp only [number?, leaf?_array, leaf?_object]

theorem blind_tag : Blind place Tag.decode := by
  intro v v' h
  cases h <;> rfl

theorem blind_list (h : ∀ index, Blind (place.item index) decode) :
    Blind place (list? decode) := by
  intro v v' hstep
  cases hstep with
  | members => rfl
  | member => rfl
  | item front back hitem => exact mapM_replace decode (h _ hitem) front back

theorem blind_optional (h : Blind place decode) : Blind place (optional? decode) := by
  intro v v' hstep
  have hnull : v.chars ≠ ['n', 'u', 'l', 'l'] ∧ v'.chars ≠ ['n', 'u', 'l', 'l'] := by
    cases hstep <;> simp [chars_array, chars_object]
  rw [optional?, optional?, if_neg hnull.1, if_neg hnull.2, h hstep]

/-- The members of a table may not change places, but members below it may. -/
theorem blind_table (h : Blind .elsewhere decode) : Blind .table (table? decode) := by
  intro v v' hstep
  cases hstep with
  | members hplace => exact absurd rfl hplace
  | item => rfl
  | member front key back hmember =>
    rw [table?, table?, List.foldlM_append, List.foldlM_append]
    simp only [List.foldlM_cons, h hmember]

theorem blind_bind {β : Type} (h : Blind place decode) (next : α → Option β) :
    Blind place fun v => (decode v).bind next := by
  intro v v' hstep
  simp only [h hstep]

/-- **A record of two fields is decoded without regard to the order of members.** -/
theorem blind_halves {β γ : Type} {form : Form (Option β × Option γ) α} {first second : String}
    {left : Json → Option β} {right : Json → Option γ} (hfields : form.fields = [first, second])
    (hne : second ≠ first)
    (hhas : ∀ draft field, form.has draft field =
      if field = first then draft.1.isSome else draft.2.isSome)
    (hfirst : place.member first = place.item 0) (hsecond : place.member second = place.item 1)
    (hleft : Blind (place.item 0) left) (hright : Blind (place.item 1) right) :
    Blind place (form.decode (Form.halves first left right)) := by
  have hlawful := Form.lawful_halves hfields hne hhas left right
  -- a field sees nothing of a step below the place where it stands
  have hfield : ∀ {v v' field}, field = first ∧ Reorders (place.item 0) v v' ∨
      field = second ∧ Reorders (place.item 1) v v' → ∀ draft,
        Form.halves first left right field draft v =
          Form.halves first left right field draft v' := by
    rintro v v' field (⟨rfl, h⟩ | ⟨rfl, h⟩) draft
    · rw [Form.halves_first, Form.halves_first, hleft h]
    · rw [Form.halves_second hne, Form.halves_second hne, hright h]
  intro v v' hstep
  cases hstep with
  | members hplace hperm => exact hlawful.gather_perm hperm
  | item front back hitem =>
    refine Form.fill_replace ?_ back
    intro field hat
    rw [hfields] at hat
    rcases front with _ | ⟨_, _ | ⟨_, front⟩⟩
    · exact hfield (.inl ⟨(Option.some.inj hat).symm, hitem⟩)
    · exact hfield (.inr ⟨(Option.some.inj hat).symm, hitem⟩)
    · cases hat
  | member front key back hmember =>
    refine hlawful.gather_replace ?_ front back
    intro hkey
    rw [hfields, List.mem_pair] at hkey
    rcases hkey with rfl | rfl
    · exact hfield (.inl ⟨rfl, hfirst ▸ hmember⟩)
    · exact hfield (.inr ⟨rfl, hsecond ▸ hmember⟩)

end Blind

/-! ## Documents -/

theorem Recipe.blind_decode : Blind .elsewhere Recipe.decode :=
  blind_halves rfl (by decide) (fun _ _ => rfl) rfl rfl blind_text blind_text

theorem Model.blind_decode : Blind .elsewhere Model.decode :=
  blind_halves rfl (by decide) (fun _ _ => rfl) rfl rfl blind_text
    (blind_optional Recipe.blind_decode)

theorem Pair.blind_decode : Blind .elsewhere Pair.decode :=
  blind_halves rfl (by decide) (fun _ _ => rfl) rfl rfl (blind_list fun _ => blind_number)
    (blind_list fun _ => blind_number)

theorem Dataset.blind_decode : Blind .elsewhere Dataset.decode := by
  have hpairs : Blind .elsewhere (list? Pair.decode) := blind_list fun _ => Pair.blind_decode
  exact blind_bind hpairs _

theorem Store.blind_decode : Blind .resources Store.decode :=
  blind_halves rfl (by decide) (fun _ _ => rfl) rfl rfl (blind_table Model.blind_decode)
    (blind_table Dataset.blind_decode)

theorem Node.blind_decode {place : Place} : Blind place Node.decode := by
  intro v v' hstep
  cases hstep with
  | members _ hperm => rw [decode_object, decode_object, Tag.assemble_perm hperm]
  | item front back hitem =>
    cases front with
    | nil =>
      rw [List.nil_append, List.nil_append, decode, decode, blind_tag hitem]
    | cons first front =>
      rw [List.cons_append, List.cons_append, decode, decode]
      congr 1
      funext tag
      refine bind_eq_of_rel (mapM_differOnce (hitem.readsAlike_reread nesting) front back) ?_
      rintro _ _ ⟨front, v, v', back, halike, rfl, rfl⟩
      rw [toOption_ofItems_parts, toOption_ofItems_parts, halike.fill_replace]
  | member front key back hmember =>
    rw [decode_object, decode_object]
    exact Tag.assemble_replace (blind_tag hmember)
      (rel_map (hmember.readsAlike_reread nesting) fun _ _ h => h.part) key front back

theorem Document.blind_decode : Blind .document Document.decode :=
  blind_halves rfl (by decide) (fun _ _ => rfl) rfl rfl (blind_list fun _ => Node.blind_decode)
    Store.blind_decode

/-- A document is what its tree decodes to. -/
theorem Document.decode_toJson {document : Document}
    (hnumbers : ∀ x ∈ document.numbers, x.ReadsBack) (hdepth : document.toJson.depth ≤ 127) :
    Document.decode document.toJson = some document := by
  have hdecode := Document.decodes_readStart document.toJson ends_nil
  rw [Document.reads hnumbers hdepth ends_nil] at hdecode
  obtain ⟨_, hfound, heq⟩ := Option.map_eq_some_iff.mp hdecode.symm
  cases heq
  exact hfound

/-- **The order of members does not matter.** The text of a tree whose members are in another order,
anywhere but in the tables of the resources, is accepted exactly if the text of the tree is, and
gives the same document. -/
theorem Document.member_order_is_free {tree tree' : Json} (h : Reordered .document tree tree')
    (document : Document) :
    Document.ofText tree.text = .ok document ↔ Document.ofText tree'.text = .ok document := by
  have hdecode : Document.decode tree = Document.decode tree' := by
    induction h with
    | refl => rfl
    | tail _ hstep ih => exact ih.trans (Document.blind_decode hstep)
  rw [Document.ofText_text_eq_ok_iff, Document.ofText_text_eq_ok_iff, hdecode]

/-- Tags behind the fields, in a node and in the one around it, and every other record written from
its last field to its first. -/
theorem Document.member_order_is_free_tag_last :
    let document : Document :=
      { program := ⟨[.mainFunction [.call "f" (some ⟨"Net", "n"⟩)]]⟩
        resources := { models := Table.empty.insert ⟨"a.eg"⟩ ⟨"Net", some ⟨"feedforward", "?:B"⟩⟩
                       datasets := Table.empty.insert ⟨"b.egb"⟩
                         ⟨[⟨[⟨0⟩], []⟩], Dataset.fault?_eq_none_iff.mp rfl⟩ } }
    let tree : Json := .object [
      ("resources", .object [
        ("datasets", .object [("b.egb", .array [.object [
          ("ideal", .array []), ("input", .array [.float ⟨0⟩])]])]),
        ("models", .object [("a.eg", .object [
          ("factory", .object [("architecture", .string "?:B"), ("type", .string "feedforward")]),
          ("kind", .string "Net")])])]),
      ("program", .array [.object [
        ("children", .array [.object [
          ("result", .object [("var", .string "n"), ("type_name", .string "Net")]),
          ("name", .string "f"), ("type", .string "function_call")]]),
        ("type", .string "main_function")]])]
    Reordered .document document.toJson tree ∧ Document.ofText tree.text = .ok document := by
  intro document tree
  have hreordered : Reordered .document document.toJson tree := by
    -- from the inside out: the binding, the call and its container
    refine .head (.member [] "program" _ (.item [] [] (.member [_] "children" [] (.item [] []
      (.member [_, _] "result" [] (.members (by decide) (.swap _ _ []))))))) ?_
    refine .head (.member [] "program" _ (.item [] [] (.member [_] "children" [] (.item [] []
      (.members (by decide) (List.reverse_perm _).symm))))) ?_
    refine .head (.member [] "program" _ (.item [] [] (.members (by decide) (.swap _ _ [])))) ?_
    -- the recipe, the model and the pair below the tables
    refine .head (.member [_] "resources" [] (.member [] "models" _ (.member [] "a.eg" []
      (.member [_] "factory" [] (.members (by decide) (.swap _ _ [])))))) ?_
    refine .head (.member [_] "resources" [] (.member [] "models" _ (.member [] "a.eg" []
      (.members (by decide) (.swap _ _ []))))) ?_
    refine .head (.member [_] "resources" [] (.member [_] "datasets" [] (.member [] "b.egb" []
      (.item [] [] (.members (by decide) (.swap _ _ [])))))) ?_
    -- the tables and the document
    refine .head (.member [_] "resources" [] (.members (by decide) (.swap _ _ []))) ?_
    exact .single (.members (by decide) (.swap _ _ []))
  have hdocument : Document.decode document.toJson = some document := by
    refine Document.decode_toJson ?_ (by decide)
    intro x hx
    rw [show document.numbers = [⟨0⟩] from rfl, List.mem_singleton] at hx
    subst hx
    exact ⟨rfl, rfl⟩
  exact ⟨hreordered, (Document.member_order_is_free hreordered document).mp
    (Document.ofText_text_eq_ok_iff.mpr hdocument)⟩

end NetScribe
