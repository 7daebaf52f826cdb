import NetScribe.Proofs.Decoding

/-!
# Members in any order

A record is put together member by member, and a member is refused or ignored by what came before
it. Fields that do not get into each other's way (`Form.Lawful`) make two neighbouring members
change places without a difference, so any order gives one record (`Form.Lawful.gather_perm`).

A node is put together in two rounds: its tag is sorted out first, and the kind of node it names
says which of the other members are fields. Two neighbours that change places in the first round
leave the others in another order for the second, which does not see it (`Tag.assemble_perm`).
-/

namespace NetScribe

/-! ## Steps in another order -/

section Steps

variable {σ ι : Type} {R : σ → σ → Prop} {step : σ → ι → Option σ}

theorem rel_refl (hR : Equivalence R) (a : Option σ) : Option.Rel R a a := by
  cases a with
  | none => exact .none
  | some s => exact .some (hR.refl s)

theorem rel_trans (hR : Equivalence R) {a b c : Option σ} (hab : Option.Rel R a b)
    (hbc : Option.Rel R b c) : Option.Rel R a c := by
  cases hab with
  | none => exact hbc
  | some hst =>
    cases hbc with
    | some htu => exact .some (hR.trans hst htu)

theorem rel_bind {a b : Option σ} {f g : σ → Option σ} (h : Option.Rel R a b)
    (hfg : ∀ {s t}, R s t → Option.Rel R (f s) (g t)) : Option.Rel R (a.bind f) (b.bind g) := by
  cases h with
  | none => exact .none
  | some hst => exact hfg hst

theorem rel_map {τ : Type} {S : τ → τ → Prop} {a b : Option σ} {f : σ → τ}
    (h : Option.Rel R a b) (hf : ∀ s t, R s t → S (f s) (f t)) :
    Option.Rel S (a.map f) (b.map f) := by
  cases h with
  | none => exact .none
  | some hst => exact .some (hf _ _ hst)

theorem bind_eq_of_rel {τ : Type} {a b : Option σ} {f : σ → Option τ} (h : Option.Rel R a b)
    (hf : ∀ s t, R s t → f s = f t) : a.bind f = b.bind f := by
  cases h with
  | none => rfl
  | some hst => exact hf _ _ hst

/-- Steps that keep states alike keep them alike in a row. -/
theorem foldlM_rel (hcongr : ∀ {s t} i, R s t → Option.Rel R (step s i) (step t i)) (list : List ι)
    {s t : σ} (h : R s t) : Option.Rel R (list.foldlM step s) (list.foldlM step t) := by
  induction list generalizing s t with
  | nil => exact .some h
  | cons i rest ih => exact rel_bind (hcongr i h) ih

/-- **Steps that commute two by two may be taken in any order.** -/
theorem foldlM_perm (hR : Equivalence R)
    (hcongr : ∀ {s t} i, R s t → Option.Rel R (step s i) (step t i))
    (hswap : ∀ s i j, Option.Rel R ((step s i).bind (step · j)) ((step s j).bind (step · i)))
    {list list' : List ι} (h : list.Perm list') (s : σ) :
    Option.Rel R (list.foldlM step s) (list'.foldlM step s) := by
  induction h generalizing s with
  | nil => exact .some (hR.refl s)
  | cons i _ ih =>
    refine rel_bind (rel_refl hR (step s i)) fun h => ?_
    exact rel_trans hR (foldlM_rel hcongr _ h) (ih _)
  | swap i j rest =>
    have hrow : ∀ i j, (i :: j :: rest).foldlM step s =
        ((step s i).bind (step · j)).bind (rest.foldlM step) := by
      intro i j
      rw [List.foldlM_cons, Option.bind_assoc]
      rfl
    rw [hrow, hrow]
    exact rel_bind (hswap s j i) (foldlM_rel hcongr rest)
  | trans _ _ ih₁ ih₂ => exact rel_trans hR (ih₁ s) (ih₂ s)

/-- Steps that commute exactly lead to one state. -/
theorem foldlM_eq_of_perm
    (hswap : ∀ s i j, (step s i).bind (step · j) = (step s j).bind (step · i))
    {list list' : List ι} (h : list.Perm list') (s : σ) :
    list.foldlM step s = list'.foldlM step s := by
  have hsame : ∀ a b : Option σ, Option.Rel Eq a b ↔ a = b := by
    intro a b
    constructor
    · intro h
      cases h with
      | none => rfl
      | some h => rw [h]
    · rintro rfl
      exact rel_refl eq_equivalence a
  -- equality is the relation that holds all states apart
  refine (hsame _ _).mp (foldlM_perm eq_equivalence ?_ ?_ h s)
  · rintro s _ i rfl
    exact (hsame _ _).mpr rfl
  · intro s i j
    exact (hsame _ _).mpr (hswap s i j)

theorem toOption_foldlM {ε : Type} (step : σ → ι → Except ε σ) (list : List ι) (s : σ) :
    (list.foldlM step s).toOption = list.foldlM (fun s i => (step s i).toOption) s := by
  induction list generalizing s with
  | nil => rfl
  | cons i rest ih =>
    rw [List.foldlM_cons, List.foldlM_cons, Json.toOption_bind]
    cases step s i with
    | error e => rfl
    | ok next => exact ih next

/-- Steps on another view of the states lead to the same view. -/
theorem foldlM_view {τ : Type} {step' : τ → ι → Option τ} (view : σ → τ)
    (h : ∀ s i, step' (view s) i = (step s i).map view) (list : List ι) (s : σ) :
    list.foldlM step' (view s) = (list.foldlM step s).map view := by
  induction list generalizing s with
  | nil => rfl
  | cons i rest ih =>
    rw [List.foldlM_cons, List.foldlM_cons, h]
    cases step s i with
    | none => rfl
    | some next => exact ih next

/-- One of the values may be replaced by another that gives the same. -/
theorem mapM_replace {α : Type} (f : ι → Option α) {i j : ι} (h : f i = f j)
    (front back : List ι) : (front ++ i :: back).mapM f = (front ++ j :: back).mapM f := by
  rw [List.mapM_append, List.mapM_append, List.mapM_cons, List.mapM_cons, h]

end Steps

/-! ## Fields in another order -/

namespace Form

variable {δ α ε : Type} {form : Form δ α} {take : String → δ → ε → Option δ}

/-- The fields of a record do not get into each other's way. -/
structure Lawful (form : Form δ α) (take : String → δ → ε → Option δ) : Prop where
  /-- A field that is taken up is there from then on, and no other field is. -/
  has_take : ∀ {key field : String} {draft next : δ} {e : ε}, key ∈ form.fields →
    field ∈ form.fields → take key draft e = some next →
      form.has next field = (field == key || form.has draft field)
  /-- Two fields may be taken up in either order. -/
  take_comm : ∀ {key other : String} (draft : δ) (e e' : ε), key ∈ form.fields →
    other ∈ form.fields → key ≠ other →
      (take key draft e).bind (take other · e') = (take other draft e').bind (take key · e)

theorem step_unknown {key : String} (h : key ∉ form.fields) (draft : δ) (e : ε) :
    form.step take draft (key, e) = some draft := by
  rw [step, if_neg (by simpa using h)]

theorem step_known {key : String} (h : key ∈ form.fields) (draft : δ) (e : ε) :
    form.step take draft (key, e) = if form.has draft key then none else take key draft e := by
  rw [step, if_pos (by simpa using h)]

/-- A member is refused behind another with its key. -/
theorem Lawful.step_step_same (h : form.Lawful take) {key : String} (hkey : key ∈ form.fields)
    (draft : δ) (e e' : ε) :
    (form.step take draft (key, e)).bind (form.step take · (key, e')) = none := by
  rw [step_known hkey]
  split
  · rfl
  · cases htake : take key draft e with
    | none => rfl
    | some next =>
      have hnext : form.has next key = true := by simp [h.has_take hkey hkey htake]
      rw [Option.bind_some, step_known hkey, if_pos hnext]

/-- A field is taken up behind another as without it. -/
theorem Lawful.step_step_other (h : form.Lawful take) {key other : String}
    (hkey : key ∈ form.fields) (hother : other ∈ form.fields) (hne : key ≠ other) (draft : δ)
    (e e' : ε) :
    (form.step take draft (key, e)).bind (form.step take · (other, e')) =
      if form.has draft key || form.has draft other then none
      else (take key draft e).bind (take other · e') := by
  rw [step_known hkey]
  cases form.has draft key with
  | true => rfl
  | false =>
    rw [if_neg Bool.false_ne_true, Bool.false_or]
    cases htake : take key draft e with
    | none => rw [Option.bind_none, Option.bind_none, ite_self]
    | some next =>
      have hnext : form.has next other = form.has draft other := by
        simp [h.has_take hkey hother htake, hne.symm]
      rw [Option.bind_some, step_known hother, hnext]
      rfl

/-- **Two members may change places.** -/
theorem Lawful.step_comm (h : form.Lawful take) (draft : δ) (member other : String × ε) :
    (form.step take draft member).bind (form.step take · other) =
      (form.step take draft other).bind (form.step take · member) := by
  obtain ⟨key, e⟩ := member
  obtain ⟨key', e'⟩ := other
  -- unknown members change nothing, and two with one key are refused in either order
  by_cases hkey : key ∈ form.fields
  · by_cases hkey' : key' ∈ form.fields
    · by_cases hne : key = key'
      · subst hne
        rw [h.step_step_same hkey, h.step_step_same hkey]
      · rw [h.step_step_other hkey hkey' hne, h.step_step_other hkey' hkey (Ne.symm hne),
          Bool.or_comm, h.take_comm draft e e' hkey hkey' hne]
    · simp only [step_unknown hkey', Option.bind_some, Option.bind_fun_some]
  · simp only [step_unknown hkey, Option.bind_some, Option.bind_fun_some]

/-- **The order of an object's members does not matter.** -/
theorem Lawful.gather_perm (h : form.Lawful take) {members members' : List (String × ε)}
    (hperm : members.Perm members') : form.gather take members = form.gather take members' := by
  rw [gather, foldlM_eq_of_perm h.step_comm hperm, gather]

/-- The value of a member may be replaced by another that is taken up alike. -/
theorem Lawful.gather_replace (h : form.Lawful take) {key : String} {e e' : ε}
    (hsame : key ∈ form.fields → ∀ draft, take key draft e = take key draft e')
    (front back : List (String × ε)) :
    form.gather take (front ++ (key, e) :: back) =
      form.gather take (front ++ (key, e') :: back) := by
  -- the member is as good at the front, where nothing has been taken up yet
  rw [h.gather_perm List.perm_middle, h.gather_perm (List.perm_middle (a := (key, e')))]
  rw [gather, gather, List.foldlM_cons, List.foldlM_cons]
  by_cases hkey : key ∈ form.fields
  · rw [step_known hkey, step_known hkey, hsame hkey]
  · rw [step_unknown hkey, step_unknown hkey]

/-- An item may be replaced by another that is taken up alike as the field in its place. -/
theorem fill_replace {front : List ε} {e e' : ε}
    (hsame : ∀ field, form.fields[front.length]? = some field →
      ∀ draft, take field draft e = take field draft e') (back : List ε) :
    form.fill take (front ++ e :: back) = form.fill take (front ++ e' :: back) := by
  have hfold : ∀ (fields : List String) (front : List ε) (draft : δ),
      (∀ field, fields[front.length]? = some field →
        ∀ draft, take field draft e = take field draft e') →
      (fields.zip (front ++ e :: back)).foldlM (fun draft entry => take entry.1 draft entry.2)
          draft =
        (fields.zip (front ++ e' :: back)).foldlM (fun draft entry => take entry.1 draft entry.2)
          draft := by
    intro fields
    induction fields with
    | nil => intro front draft _; rfl
    | cons field fields ih =>
      intro front draft hsame
      cases front with
      | nil =>
        simp only [List.nil_append, List.zip_cons_cons, List.foldlM_cons]
        rw [hsame field rfl draft]
      | cons first front =>
        simp only [List.cons_append, List.zip_cons_cons, List.foldlM_cons]
        have hrest : ∀ draft, _ := fun draft => ih front draft hsame
        simp only [hrest]
  simp only [fill, hfold form.fields front form.empty hsame, List.length_append, List.length_cons]

theorem toOption_ofMembers (set : String → δ → ε → Except Json.Cause δ)
    (members : List (String × ε)) :
    (form.ofMembers set members).toOption =
      form.gather (fun key draft e => (set key draft e).toOption) members := by
  have hstep : ∀ (draft : δ) (member : String × ε),
      (if form.fields.contains member.1 then
        if form.has draft member.1 then .error (.duplicateField member.1)
        else set member.1 draft member.2
      else .ok draft : Except Json.Cause δ).toOption =
        form.step (fun key draft e => (set key draft e).toOption) draft member := by
    intro draft member
    rw [step]
    split
    · split <;> rfl
    · rfl
  rw [ofMembers, Json.toOption_bind, toOption_foldlM, gather]
  simp only [hstep]
  congr 1
  funext draft
  cases form.finish draft <;> rfl

theorem toOption_ofItems (set : String → δ → ε → Except Json.Cause δ) (items : List ε) :
    (form.ofItems set items).toOption =
      form.fill (fun key draft e => (set key draft e).toOption) items := by
  rw [ofItems, Json.toOption_bind, toOption_foldlM, fill]
  generalize List.foldlM (m := Option) _ _ (form.fields.zip items) = made
  cases made with
  | none => simp
  | some draft =>
    simp only [Option.bind_some]
    cases form.finish draft with
    | error field => simp [Except.toOption]
    | ok record => dsimp only; split <;> rfl

section Halves

variable {β γ : Type} {left : Json → Option β} {right : Json → Option γ} {first : String}

theorem halves_first (draft : Option β × Option γ) (v : Json) :
    halves first left right first draft v = (left v).map fun b => (some b, draft.2) := by
  rw [halves, if_pos rfl]

theorem halves_second {field : String} (h : field ≠ first) (draft : Option β × Option γ)
    (v : Json) :
    halves first left right field draft v = (right v).map fun c => (draft.1, some c) := by
  rw [halves, if_neg h]

/-- A record of two fields is lawful. -/
theorem lawful_halves {form : Form (Option β × Option γ) α} {second : String}
    (hfields : form.fields = [first, second]) (hne : second ≠ first)
    (hhas : ∀ draft field, form.has draft field =
      if field = first then draft.1.isSome else draft.2.isSome)
    (left : Json → Option β) (right : Json → Option γ) :
    form.Lawful (halves first left right) where
  has_take := by
    intro key field draft next v hkey hfield htake
    rw [hfields, List.mem_pair] at hkey hfield
    rw [hhas, hhas]
    rcases hkey with rfl | rfl
    · rw [halves_first] at htake
      obtain ⟨b, -, rfl⟩ := Option.map_eq_some_iff.mp htake
      by_cases hfirst : field = key <;> simp [hfirst]
    · rw [halves_second hne] at htake
      obtain ⟨c, -, rfl⟩ := Option.map_eq_some_iff.mp htake
      rcases hfield with rfl | rfl
      · simp [hne.symm]
      · simp [hne]
  take_comm := by
    intro key other draft v v' hkey hother hdiff
    -- one of the two is the first field, and the other is the second
    have hcomm : ∀ draft v v',
        (halves first left right first draft v).bind (halves first left right second · v') =
          (halves first left right second draft v').bind (halves first left right first · v) := by
      intro draft v v'
      simp only [halves_first, halves_second hne]
      cases left v <;> cases right v' <;> rfl
    rw [hfields, List.mem_pair] at hkey hother
    rcases hkey with rfl | rfl <;> rcases hother with rfl | rfl
    · exact absurd rfl hdiff
    · exact hcomm draft v v'
    · exact (hcomm draft v' v).symm
    · exact absurd rfl hdiff

end Halves

end Form

/-! ## Nodes -/

open Json

theorem Json.toOption_asText (expected : String) (v : Json) :
    (v.asText expected).toOption = text? v := by
  cases v <;> rfl

theorem Json.toOption_asPath (v : Json) : v.asPath.toOption = (text? v).map Path.mk := by
  rw [asPath, toOption_map, toOption_asText]

/-- A field of a node and what is in it. -/
inductive NodeField where
  | text (text : String)
  | name (name : String)
  | children (nodes : List Node)
  | typeName (name : String)
  | constant (text : String)
  | result (binding : Option Binding)
  | values (numbers : List Binary64)
  | model (path : Path)
  | data (path : Path)

namespace NodeField

def key : NodeField → String
  | text _ => "text"
  | name _ => "name"
  | children _ => "children"
  | typeName _ => "type_name"
  | constant _ => "value"
  | result _ => "result"
  | values _ => "values"
  | model _ => "model"
  | data _ => "data"

def keys : List String :=
  ["text", "name", "children", "type_name", "value", "result", "values", "model", "data"]

/-- What a part holds for a field. -/
def ofPart? (key : String) (part : Part) : Option NodeField :=
  match key with
  | "text" => (part.value.asText "a string").toOption.map .text
  | "name" => (part.value.asText "a string").toOption.map .name
  | "children" => part.nodes.toOption.map .children
  | "type_name" => (part.value.asText "a string").toOption.map .typeName
  | "value" => (part.value.asText "a string").toOption.map .constant
  | "result" => part.value.asBinding?.toOption.map .result
  | "values" => part.value.asNumbers.toOption.map .values
  | "model" => part.value.asPath.toOption.map .model
  | "data" => part.value.asPath.toOption.map .data
  | _ => none

theorem key_ofPart? {key : String} {part : Part} {field : NodeField}
    (h : ofPart? key part = some field) : field.key = key := by
  have hmap : ∀ {α : Type} {x : Option α} {make : α → NodeField} {key : String},
      x.map make = some field → (∀ a, (make a).key = key) → field.key = key := by
    intro α x make key h hmake
    obtain ⟨a, -, rfl⟩ := Option.map_eq_some_iff.mp h
    exact hmake a
  unfold ofPart? at h
  split at h
  case h_10 => cases h
  all_goals exact hmap h fun _ => rfl

end NodeField

namespace NodeDraft

def put (draft : NodeDraft) : NodeField → NodeDraft
  | .text text => { draft with text := some text }
  | .name name => { draft with name := some name }
  | .children nodes => { draft with children := some nodes }
  | .typeName name => { draft with typeName := some name }
  | .constant text => { draft with constant := some text }
  | .result binding => { draft with result := some binding }
  | .values numbers => { draft with values := some numbers }
  | .model path => { draft with model := some path }
  | .data path => { draft with data := some path }

theorem toOption_set {key : String} (h : key ∈ NodeField.keys) (draft : NodeDraft) (part : Part) :
    (set key draft part).toOption = (NodeField.ofPart? key part).map draft.put := by
  have hmap : ∀ {α : Type} (x : Except Cause α) (make : α → NodeField),
      (do .ok (draft.put (make (← x))) : Except Cause NodeDraft).toOption =
        (x.toOption.map make).map draft.put := by
    intro α x make
    cases x <;> rfl
  simp only [NodeField.keys, List.mem_cons, List.not_mem_nil, or_false] at h
  rcases h with rfl | rfl | rfl | rfl | rfl | rfl | rfl | rfl | rfl
  · exact hmap (part.value.asText _) .text
  · exact hmap (part.value.asText _) .name
  · exact hmap part.nodes .children
  · exact hmap (part.value.asText _) .typeName
  · exact hmap (part.value.asText _) .constant
  · exact hmap part.value.asBinding? .result
  · exact hmap part.value.asNumbers .values
  · exact hmap part.value.asPath .model
  · exact hmap part.value.asPath .data

theorem has_put (draft : NodeDraft) (field : NodeField) {key : String} (h : key ∈ NodeField.keys) :
    (draft.put field).has key = (key == field.key || draft.has key) := by
  simp only [NodeField.keys, List.mem_cons, List.not_mem_nil, or_false] at h
  rcases h with rfl | rfl | rfl | rfl | rfl | rfl | rfl | rfl | rfl <;> cases field <;> rfl

theorem put_comm (draft : NodeDraft) {field other : NodeField} (h : field.key ≠ other.key) :
    (draft.put field).put other = (draft.put other).put field := by
  cases field <;> cases other <;> first | rfl | exact absurd rfl h

end NodeDraft

namespace Tag

theorem fields_subset (tag : Tag) : tag.fields ⊆ NodeField.keys := by
  cases tag <;> decide

/-- Take up a field of a node. -/
def take (key : String) (draft : NodeDraft) (part : Part) : Option NodeDraft :=
  (NodeDraft.set key draft part).toOption

/-- The nodes of a kind are lawful. -/
theorem lawful (tag : Tag) : tag.form.Lawful take where
  has_take := by
    intro key field draft next part hkey hfield htake
    rw [take, NodeDraft.toOption_set (tag.fields_subset hkey)] at htake
    obtain ⟨found, hfound, rfl⟩ := Option.map_eq_some_iff.mp htake
    rw [← NodeField.key_ofPart? hfound]
    exact NodeDraft.has_put draft found (tag.fields_subset hfield)
  take_comm := by
    intro key other draft part part' hkey hother hne
    simp only [take, NodeDraft.toOption_set (tag.fields_subset hkey),
      NodeDraft.toOption_set (tag.fields_subset hother)]
    cases hfound : NodeField.ofPart? key part with
    | none => cases NodeField.ofPart? other part' <;> rfl
    | some field =>
      cases hfound' : NodeField.ofPart? other part' with
      | none => rfl
      | some field' =>
        rw [← NodeField.key_ofPart? hfound, ← NodeField.key_ofPart? hfound'] at hne
        exact congrArg some (draft.put_comm hne)

end Tag

/-- Parts that hold the same for every field. -/
def Part.Alike (part part' : Part) : Prop :=
  ∀ key, NodeField.ofPart? key part = NodeField.ofPart? key part'

theorem Part.Alike.take_eq {part part' : Part} (h : part.Alike part') {tag : Tag} {key : String}
    (hkey : key ∈ tag.form.fields) (draft : NodeDraft) :
    Tag.take key draft part = Tag.take key draft part' := by
  rw [Tag.take, Tag.take, NodeDraft.toOption_set (tag.fields_subset hkey),
    NodeDraft.toOption_set (tag.fields_subset hkey), h key]

namespace Tag

variable {ε : Type}

/-- Take up a member of a node: its tag, or another that is kept. -/
def sortOut (tagOf : ε → Option Tag) (keep : ε → Option Part)
    (read : Option Tag × List (String × Part)) (member : String × ε) :
    Option (Option Tag × List (String × Part)) :=
  if member.1 = key then
    if read.1.isSome then none else (tagOf member.2).map fun tag => (some tag, read.2)
  else (keep member.2).map fun part => (read.1, (member.1, part) :: read.2)

/-- The node of an object's members, the tag among them. -/
def assemble (tagOf : ε → Option Tag) (keep : ε → Option Part) (members : List (String × ε)) :
    Option Node :=
  (members.foldlM (sortOut tagOf keep) (none, [])).bind fun read =>
    read.1.bind fun tag => tag.form.gather take read.2

/-- The tag is the same, and so are the other members up to their order. -/
def SortedAlike (read read' : Option Tag × List (String × Part)) : Prop :=
  read.1 = read'.1 ∧ read.2.Perm read'.2

theorem equivalence_sortedAlike : Equivalence SortedAlike where
  refl read := ⟨rfl, .refl read.2⟩
  symm h := ⟨h.1.symm, h.2.symm⟩
  trans h h' := ⟨h.1.trans h'.1, h.2.trans h'.2⟩

variable {tagOf : ε → Option Tag} {keep : ε → Option Part}

theorem sortOut_congr {read read' : Option Tag × List (String × Part)} (member : String × ε)
    (h : SortedAlike read read') :
    Option.Rel SortedAlike (sortOut tagOf keep read member) (sortOut tagOf keep read' member) := by
  obtain ⟨tag, others⟩ := read
  obtain ⟨tag', others'⟩ := read'
  obtain ⟨rfl, hperm⟩ : tag = tag' ∧ others.Perm others' := h
  rw [sortOut, sortOut]
  split
  · split
    · exact .none
    · cases tagOf member.2 with
      | none => exact .none
      | some tag => exact .some ⟨rfl, hperm⟩
  · cases keep member.2 with
    | none => exact .none
    | some part => exact .some ⟨rfl, hperm.cons _⟩

theorem sortOut_comm (read : Option Tag × List (String × Part)) (member other : String × ε) :
    Option.Rel SortedAlike
      ((sortOut tagOf keep read member).bind (sortOut tagOf keep · other))
      ((sortOut tagOf keep read other).bind (sortOut tagOf keep · member)) := by
  obtain ⟨tag, others⟩ := read
  by_cases hkey : member.1 = key
  · by_cases hother : other.1 = key
    · -- the second of two tags is refused
      simp only [sortOut, if_pos hkey, if_pos hother]
      cases tag with
      | some tag => exact .none
      | none => cases tagOf member.2 <;> cases tagOf other.2 <;> exact .none
    · simp only [sortOut, if_pos hkey, if_neg hother]
      cases tag with
      | some tag => cases keep other.2 <;> exact .none
      | none =>
        cases tagOf member.2 <;> cases keep other.2 <;>
          exact rel_refl equivalence_sortedAlike _
  · by_cases hother : other.1 = key
    · simp only [sortOut, if_neg hkey, if_pos hother]
      cases tag with
      | some tag => cases keep member.2 <;> exact .none
      | none =>
        cases tagOf other.2 <;> cases keep member.2 <;>
          exact rel_refl equivalence_sortedAlike _
    · simp only [sortOut, if_neg hkey, if_neg hother]
      cases keep member.2 with
      | none => cases keep other.2 <;> exact .none
      | some part =>
        cases keep other.2 with
        | none => exact .none
        | some part' => exact .some ⟨rfl, .swap _ _ _⟩

/-- **The order of a node's members does not matter**, and the tag may stand anywhere. -/
theorem assemble_perm {members members' : List (String × ε)} (h : members.Perm members') :
    assemble tagOf keep members = assemble tagOf keep members' := by
  have hread : Option.Rel SortedAlike (members.foldlM (sortOut tagOf keep) (none, []))
      (members'.foldlM (sortOut tagOf keep) (none, [])) :=
    foldlM_perm equivalence_sortedAlike sortOut_congr sortOut_comm h (none, [])
  refine bind_eq_of_rel hread ?_
  intro read read' hsorted
  rw [hsorted.1]
  congr 1
  funext tag
  exact tag.lawful.gather_perm hsorted.2

/-- What the last member adds. -/
theorem assemble_concat (members : List (String × ε)) (last : String × ε) :
    assemble tagOf keep (members ++ [last]) =
      (members.foldlM (sortOut tagOf keep) (none, [])).bind fun read =>
        (sortOut tagOf keep read last).bind fun read =>
          read.1.bind fun tag => tag.form.gather take read.2 := by
  rw [assemble, List.foldlM_append]
  cases members.foldlM (sortOut tagOf keep) (none, []) with
  | none => rfl
  | some read =>
    change ((sortOut tagOf keep read last).bind some).bind _ = _
    rw [Option.bind_fun_some]
    rfl

/-- The value of a member may be replaced by another that is kept alike. -/
theorem assemble_replace {e e' : ε} (htag : tagOf e = tagOf e')
    (hkeep : Option.Rel Part.Alike (keep e) (keep e')) (name : String)
    (front back : List (String × ε)) :
    assemble tagOf keep (front ++ (name, e) :: back) =
      assemble tagOf keep (front ++ (name, e') :: back) := by
  have hend : ∀ e, (front ++ (name, e) :: back).Perm (front ++ back ++ [(name, e)]) := by
    intro e
    exact List.perm_middle.trans (List.perm_append_singleton _ _).symm
  -- the member is as good at the end, where both values meet the same state
  rw [assemble_perm (hend e), assemble_perm (hend e'), assemble_concat, assemble_concat]
  congr 1
  funext read
  rw [sortOut, sortOut]
  by_cases hname : name = key
  · rw [if_pos hname, if_pos hname, htag]
  · rw [if_neg hname, if_neg hname]
    dsimp only
    generalize keep e = kept, keep e' = kept' at hkeep ⊢
    cases hkeep with
    | none => rfl
    | some halike =>
      simp only [Option.map_some, Option.bind_some]
      congr 1
      funext tag
      exact tag.lawful.gather_replace (fun hkey draft => halike.take_eq hkey draft) [] read.2

/-- What was sorted out in another order, or is seen in another way, gives the same node. -/
theorem toOption_ofMembers_perm (tag : Tag) {members members' : List (String × Part)}
    (h : members.Perm members') :
    (tag.ofMembers members).toOption = tag.form.gather take members' := by
  rw [ofMembers, Form.toOption_ofMembers]
  exact tag.lawful.gather_perm h

/-- The members of a node below another are assembled. -/
theorem toOption_nodeOfMembers (members : List (String × Part)) :
    (nodeOfMembers members).toOption =
      assemble (fun part => (ofValue part.value).toOption) some members := by
  have hextract : members.foldlM (sortOut (fun part => (ofValue part.value).toOption) some)
      (none, []) = (extract members).toOption.map fun read => (read.1, read.2.reverse) := by
    rw [extract, toOption_foldlM]
    refine foldlM_view (fun read : Option Tag × List (String × Part) => (read.1, read.2.reverse))
      ?_ members (none, [])
    rintro ⟨tag, others⟩ ⟨name, part⟩
    simp only [sortOut]
    split
    · cases tag with
      | some tag => rfl
      | none => dsimp only; cases ofValue part.value <;> rfl
    · simp [Except.toOption]
  rw [nodeOfMembers, toOption_bind, assemble, hextract, Option.bind_map]
  congr 1
  funext read
  obtain ⟨tag, others⟩ := read
  cases tag with
  | none => rfl
  | some tag => exact tag.toOption_ofMembers_perm (List.reverse_perm others).symm

end Tag

namespace Json

/-- A value below a node. -/
def part (v : Json) : Part := ⟨v, v.asNodes⟩

theorem parts_eq_map (items : List Json) : parts items = items.map part := by
  induction items with
  | nil => rfl
  | cons item rest ih => rw [parts, ih, List.map_cons, part]

theorem memberParts_eq_map (members : List (String × Json)) :
    memberParts members = members.map fun member => (member.1, member.2.part) := by
  induction members with
  | nil => rfl
  | cons member rest ih =>
    obtain ⟨key, v⟩ := member
    rw [memberParts, ih, List.map_cons, part]

end Json

/-- The members of a node at the top of the program are assembled. -/
theorem Node.decode_object (members : List (String × Json)) :
    Node.decode (.object members) =
      Tag.assemble Tag.decode (fun v => (reread nesting v).map part) members := by
  have hcollect : members.foldlM
      (Tag.sortOut Tag.decode fun v => (reread nesting v).map part) (none, []) =
        (members.foldlM collect (none, [])).map fun read => (read.1, memberParts read.2) := by
    refine foldlM_view (fun read : Option Tag × List (String × Json) =>
      (read.1, memberParts read.2)) ?_ members (none, [])
    rintro ⟨tag, others⟩ ⟨name, v⟩
    simp only [Tag.sortOut, collect]
    split
    · split
      · rfl
      · cases Tag.decode v <;> rfl
    · cases reread nesting v <;> rfl
  rw [Node.decode, Tag.assemble, hcollect, Option.bind_map]
  congr 1
  funext read
  obtain ⟨tag, others⟩ := read
  cases tag with
  | none => rfl
  | some tag =>
    refine tag.toOption_ofMembers_perm ?_
    simp only [memberParts_eq_map]
    exact (List.reverse_perm others).map _

end NetScribe
