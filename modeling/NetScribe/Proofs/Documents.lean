import NetScribe.Proofs.Places
import NetScribe.Proofs.Values

/-!
# Documents in a text

A document is read from its own text as it was written (`document_round_trip`). Outside nodes, every
record has a reader of its own; `Form.reads_object` reads a record from its members, and each kind
of record says only what its members are read as. Entries of a table are written in order, so each
goes behind those read before it (`Table.steps_entries`).

A node is read in two steps: its members as plain values, which is where the brackets are counted,
and then the node from these values. The second step has no limits and follows the tree
(`Node.asNodes_toJsonAll`).
-/

namespace NetScribe

/-! ## Nodes as values -/

namespace Node

/-- The members of a node behind its tag. -/
def members : Node → List (String × Json)
  | comment text => [("text", .string text)]
  | classDecl name children => [("name", .string name), ("children", .array (toJsonAll children))]
  | mainFunction children => [("children", .array (toJsonAll children))]
  | staticFunction name children =>
    [("name", .string name), ("children", .array (toJsonAll children))]
  | const name typeName value =>
    [("name", .string name), ("type_name", .string typeName), ("value", .string value)]
  | call name none => [("name", .string name)]
  | call name (some binding) => [("name", .string name), ("result", binding.toJson)]
  | array name values => [("name", .string name), ("values", numbersToJson values)]
  | network name model => [("name", .string name), ("model", .string model.text)]
  | embedTraining data => [("data", .string data.text)]
  | loadTraining name data => [("name", .string name), ("data", .string data.text)]

/-- A node is written as its tag and its members. -/
theorem toJson_eq (node : Node) :
    node.toJson = .object (("type", .string node.tag.text) :: node.members) := by
  cases node with
  | call name result => cases result <;> rfl
  | _ => rfl

/-- No member but the tag has the key of the tag. -/
theorem members_ne_key (node : Node) : ∀ member ∈ node.members, member.1 ≠ Tag.key := by
  cases node with
  | call name result => cases result <;> simp [members, Tag.key]
  | _ => simp [members, Tag.key]

end Node

theorem Json.asNumbers_numbersToJson (values : List Binary64) :
    (numbersToJson values).asNumbers = .ok values := by
  change (values.map Json.float).mapM Json.asNumber = _
  induction values with
  | nil => rfl
  | cons x rest ih =>
    rw [List.map_cons, List.mapM_cons, ih]
    rfl

/-- **The members of a node are read as the node**, if its children are. -/
theorem Tag.ofMembers_members (node : Node)
    (h : (Json.array (Node.toJsonAll node.children)).asNodes = .ok node.children) :
    node.tag.ofMembers (Json.memberParts node.members) = .ok node := by
  cases node with
  | comment text => rfl
  | classDecl name children =>
    simp only [Node.members, Json.memberParts, Node.children] at h ⊢
    rw [h]
    rfl
  | mainFunction children =>
    simp only [Node.members, Json.memberParts, Node.children] at h ⊢
    rw [h]
    rfl
  | staticFunction name children =>
    simp only [Node.members, Json.memberParts, Node.children] at h ⊢
    rw [h]
    rfl
  | const name typeName value => rfl
  | call name result => cases result <;> rfl
  | array name values =>
    simp [Node.tag, Node.members, Json.memberParts, ofMembers, Form.ofMembers, form, fields,
      NodeDraft.has, NodeDraft.set, Json.asText, Json.asNumbers_numbersToJson, finish,
      Form.required, bind, Except.bind, pure, Except.pure]
  | network name model => rfl
  | embedTraining data => rfl
  | loadTraining name data => rfl

theorem Tag.ofText_text (tag : Tag) : Tag.ofText tag.text = .ok tag := by
  cases tag <;> rfl

/-- The tag of a node is taken out of its members. -/
theorem Tag.extract_members (tag : Tag) (nodes : Except Json.Cause (List Node))
    {others : List (String × Json)} (h : ∀ member ∈ others, member.1 ≠ Tag.key) :
    Tag.extract ((Tag.key, ⟨.string tag.text, nodes⟩) :: Json.memberParts others) =
      .ok (some tag, Json.memberParts others) := by
  have htag : Tag.ofValue (.string tag.text) = .ok tag := Tag.ofText_text tag
  rw [Tag.extract, List.foldlM_cons]
  simp only [if_true, htag]
  change List.foldlM _ (some tag, []) (Json.memberParts others) = _
  -- the induction needs what was put aside before
  suffices hothers : ∀ read, List.foldlM _ (some tag, read) (Json.memberParts others) =
      Except.ok (some tag, read ++ Json.memberParts others) from hothers []
  induction others with
  | nil =>
    intro read
    simp [Json.memberParts, pure, Except.pure]
  | cons member rest ih =>
    obtain ⟨key, value⟩ := member
    obtain ⟨hkey, hrest⟩ := List.forall_mem_cons.mp h
    intro read
    rw [Json.memberParts, List.foldlM_cons]
    simp only [hkey, if_false]
    exact (ih hrest _).trans (by simp)

/-- **Nodes are read from their values**: a node from its members and its children. -/
theorem Node.asNodes_toJsonAll (nodes : List Node) :
    (Json.array (toJsonAll nodes)).asNodes = .ok nodes := by
  induction nodes using Node.forestInduction with
  | nil => rfl
  | cons node rest below after =>
    have hnode : node.toJson.asNode = .ok node := by
      rw [toJson_eq, Json.asNode, Json.memberParts, Tag.nodeOfMembers]
      have hextract := Tag.extract_members node.tag
        (Json.string node.tag.text).asNodes node.members_ne_key
      change (Tag.extract
        ((Tag.key, ⟨.string node.tag.text, _⟩) :: Json.memberParts node.members) >>= _) = _
      rw [hextract]
      exact Tag.ofMembers_members node below
    have hrest : Json.nodeList (toJsonAll rest) = .ok rest := after
    change (do
      let node ← node.toJson.asNode
      let rest ← Json.nodeList (toJsonAll rest)
      Except.ok (node :: rest)) = _
    rw [hnode, hrest]
    rfl

/-! ## Readers -/

namespace Json

variable {α β : Type} {reader : Reader α} {text : List Char} {a : α}

/-- What is read may be put to use. -/
theorem Reads.map (h : Reads reader text a) (f : α → β) :
    Reads (fun text => do
      let (a, rest) ← reader text
      .ok (f a, rest)) text (f a) := by
  intro tail hend
  dsimp only
  rw [h hend]
  rfl

/-! A reader for one kind of value reads the text of its values. -/

theorem reads_readText (text : String) : Reads readText (Json.string text).chars text := by
  intro tail hend
  rw [chars, stringChars_append]
  exact stringBody_escaped text tail

theorem reads_readNumber {x : Binary64} (h : x.ReadsBack) :
    Reads readNumber (Json.float x).chars x := by
  intro tail hend
  rw [chars]
  rcases number_of_readsBack h with ⟨rest, hchars, hnumber⟩ | ⟨c, rest, hchars, hdigit, hnumber⟩
  · rw [hchars]
    change toNumber (number true (rest ++ tail)) = _
    rw [stops_number true hnumber hend]
    rfl
  · have hstart := (starts_of_isFloatChar (c := c) (by simp [isFloatChar, hdigit])).1
    have hstop := stops_number false hnumber hend
    rw [List.cons_append] at hstop
    rw [hchars, List.cons_append, readNumber, skipBlanks_cons hstart]
    split
    · next heq => cases heq
    · next heq =>
      cases heq
      cases hdigit
    · next heq =>
      cases heq
      rw [if_pos hdigit, hstop]
      rfl

theorem reads_readList {item : Reader α} {encode : α → Json} {list : List α}
    (h : ∀ a ∈ list, Reads item (encode a).chars a) :
    Reads (readList item) (Json.array (list.map encode)).chars list := by
  intro tail hend
  rw [chars_array]
  exact items_listBody h tail

/-- A value that is there is read as one that may be absent. -/
theorem reads_readOptional {members : List (String × Json)} {a : α}
    (h : Reads reader (Json.object members).chars a) :
    Reads (readOptional reader) (Json.object members).chars (some a) := by
  intro tail hend
  have hread := h hend
  rw [chars_object] at hread ⊢
  change (reader ('\x7b' :: objectBody members ++ tail)).map _ = _
  rw [hread]
  rfl

end Json

/-! ## Records -/

namespace Form

open Json (Reads Steps)

variable {δ α : Type} {form : Form δ α} {set : String → δ → Json.Reader δ}

/-- A known member that was not read before is taken up. -/
theorem reads_member {draft next : δ} {key : String} {value : Json}
    (hfield : form.fields.contains key = true) (hnew : form.has draft key = false)
    (h : Reads (set key draft) value.chars next) :
    Reads (form.readMember set draft key) (':' :: value.chars) next := by
  intro tail hend
  rw [readMember, if_pos hfield, hnew]
  exact h hend

/-- **A record is read from its members**, if they make a finished draft. -/
theorem reads_object {members : List (String × Json)} {draft : δ} {record : α}
    (hsteps : Steps (form.readMember set) form.empty members draft)
    (hfinish : form.finish draft = .ok record) :
    Reads (form.read set) (Json.object members).chars record := by
  intro tail hend
  have hmembers := hsteps.members_objectBody tail
  rw [Json.chars_object]
  simp only [read, List.cons_append, Json.skipBlanks_cons (c := '\x7b') rfl, hmembers, hfinish,
    bind, Except.bind]
  rfl

end Form

open Json

/-! ## Resources -/

theorem Recipe.reads (recipe : Recipe) : Reads Recipe.read recipe.toJson.chars recipe := by
  have hmethod := (reads_readText recipe.method).map fun method =>
    ((some method, none) : Option String × Option String)
  have harchitecture := (reads_readText recipe.architecture).map fun architecture =>
    (some recipe.method, some architecture)
  exact Form.reads_object (.cons (Form.reads_member rfl rfl hmethod)
    (.cons (Form.reads_member rfl rfl harchitecture) (.nil _))) rfl

theorem Model.reads (model : Model) : Reads Model.read model.toJson.chars model := by
  obtain ⟨kind, recipe⟩ := model
  have hkind := (reads_readText kind).map fun kind =>
    ((some kind, none) : Option String × Option (Option Recipe))
  cases recipe with
  | none => exact Form.reads_object (.cons (Form.reads_member rfl rfl hkind) (.nil _)) rfl
  | some recipe =>
    have hrecipe := (reads_readOptional recipe.reads).map fun recipe => (some kind, some recipe)
    exact Form.reads_object (.cons (Form.reads_member rfl rfl hkind)
      (.cons (Form.reads_member rfl rfl hrecipe) (.nil _))) rfl

theorem reads_numbers {values : List Binary64} (h : ∀ x ∈ values, x.ReadsBack) :
    Reads (readList readNumber) (numbersToJson values).chars values :=
  reads_readList fun x hx => reads_readNumber (h x hx)

theorem Pair.reads {pair : Pair} (h : ∀ x ∈ pair.input ++ pair.ideal, x.ReadsBack) :
    Reads Pair.read pair.toJson.chars pair := by
  rw [List.forall_mem_append] at h
  have hinput := (reads_numbers h.1).map fun values =>
    ((some values, none) : Option (List Binary64) × Option (List Binary64))
  have hideal := (reads_numbers h.2).map fun values => (some pair.input, some values)
  exact Form.reads_object (.cons (Form.reads_member rfl rfl hinput)
    (.cons (Form.reads_member rfl rfl hideal) (.nil _))) rfl

/-- The pairs of a dataset make that dataset. -/
theorem Dataset.ofPairs_pairs (dataset : Dataset) : ofPairs dataset.pairs = .ok dataset := by
  have hfault := fault?_eq_none_iff.mpr dataset.rectangular
  unfold ofPairs
  split
  · next fault h => rw [hfault] at h; cases h
  · rfl

theorem Dataset.reads {dataset : Dataset}
    (h : ∀ pair ∈ dataset.pairs, ∀ x ∈ pair.input ++ pair.ideal, x.ReadsBack) :
    Reads Dataset.read dataset.toJson.chars dataset := by
  intro tail hend
  have hpairs : Reads (readList Pair.read) dataset.toJson.chars dataset.pairs :=
    reads_readList fun pair hpair => Pair.reads (h pair hpair)
  rw [Dataset.read, hpairs hend]
  simp only [bind, Except.bind, Dataset.ofPairs_pairs]

namespace Table

variable {α : Type}

/-- Something stored behind all references in order is stored last. -/
theorem insertEntry_last {path : Path} {value : α} {entries : List (Path × α)}
    (h : ∀ entry ∈ entries, entry.1.key < path.key) :
    insertEntry path value entries = entries ++ [(path, value)] := by
  induction entries with
  | nil => rfl
  | cons entry rest ih =>
    obtain ⟨other, old⟩ := entry
    obtain ⟨hbefore, hrest⟩ := List.forall_mem_cons.mp h
    rw [insertEntry, if_neg (List.lt_asymm hbefore), if_pos hbefore, ih hrest]
    rfl

theorem ext {first second : Table α} (h : first.entries = second.entries) : first = second := by
  cases first
  cases second
  cases h
  rfl

/-- Take up a member of a table. -/
def readMember (value : Reader α) (table : Table α) (key : String) : Reader (Table α) :=
  fun text => do
    let (a, rest) ← value (← colon text)
    .ok (table.insert ⟨key⟩ a, rest)

variable {encode : α → Json} {value : Reader α}

/-- The entries of a table, taken up in order, make the table. -/
theorem steps_entries {table : Table α}
    (h : ∀ entry ∈ table.entries, Reads value (encode entry.2).chars entry.2)
    {todo : List (Path × α)} (made : Table α) (hmade : made.entries ++ todo = table.entries) :
    Steps (readMember value) made (todo.map fun (path, a) => (path.text, encode a)) table := by
  induction todo generalizing made with
  | nil =>
    rw [List.append_nil] at hmade
    rw [ext hmade]
    exact .nil table
  | cons entry rest ih =>
    obtain ⟨path, a⟩ := entry
    have hread : Reads value (encode a).chars a := h (path, a) (by simp [← hmade])
    -- the entries are sorted, so this one goes behind those already there
    have hbefore : ∀ entry ∈ made.entries, entry.1.key < path.key := by
      have hsorted := table.sorted
      rw [← hmade, List.pairwise_append] at hsorted
      exact fun entry hentry => hsorted.2.2 entry hentry (path, a) List.mem_cons_self
    have hentries : (made.insert path a).entries = made.entries ++ [(path, a)] :=
      insertEntry_last hbefore
    have hnext : (made.insert path a).entries ++ rest = table.entries := by
      rw [hentries, List.append_assoc]
      exact hmade
    exact .cons (hread.map fun a => made.insert path a) (ih _ hnext)

/-- **A table is read from its entries.** -/
theorem reads {table : Table α}
    (h : ∀ entry ∈ table.entries, Reads value (encode entry.2).chars entry.2) :
    Reads (readTable value) (table.toJson encode).chars table := by
  intro tail hend
  have hsteps := steps_entries h .empty (List.nil_append _)
  have hmembers := hsteps.members_objectBody tail
  rw [Table.toJson, chars_object]
  change (Json.members (readMember value) .empty (objectBody _ ++ tail) >>= _) = _
  rw [hmembers]
  rfl

end Table

/-- **A store is read from its text.** -/
theorem Store.reads {store : Store}
    (h : ∀ entry ∈ store.datasets.entries, ∀ pair ∈ entry.2.pairs,
      ∀ x ∈ pair.input ++ pair.ideal, x.ReadsBack) :
    Reads Store.read store.toJson.chars store := by
  have hmodels := (Table.reads fun entry (_ : entry ∈ store.models.entries) => entry.2.reads).map
    fun models => ((some models, none) : Option (Table Model) × Option (Table Dataset))
  have hdatasets := (Table.reads fun entry hentry => Dataset.reads (h entry hentry)).map
    fun datasets => (some store.models, some datasets)
  exact Form.reads_object (.cons (Form.reads_member rfl rfl hmodels)
    (.cons (Form.reads_member rfl rfl hdatasets) (.nil _))) rfl

/-! ## Programs -/

theorem Tag.reads (tag : Tag) : Reads Tag.read (Json.string tag.text).chars tag := by
  intro tail hend
  rw [chars, stringChars_append]
  change (stringBody (tag.text.toList.flatMap Json.escapeChar ++ '"' :: tail) >>= _) = _
  rw [stringBody_escaped]
  simp only [bind, Except.bind, Tag.ofText_text]

namespace Node

/-- The numbers of a node itself. -/
def numbers : Node → List Binary64
  | array _ values => values
  | _ => []

theorem toJsonAll_eq_map (nodes : List Node) : toJsonAll nodes = nodes.map toJson := by
  induction nodes with
  | nil => rfl
  | cons node rest ih => rw [toJsonAll, ih, List.map_cons]

/-- The members of a node can be read if its numbers and its children can. -/
theorem readable_members {node : Node} (hnumbers : ∀ x ∈ node.numbers, x.ReadsBack)
    (hchildren : ∀ value ∈ toJsonAll node.children, Readable value) :
    ∀ member ∈ node.members, Readable member.2 := by
  have hbinding : ∀ binding : Binding, Readable binding.toJson := by
    intro binding
    refine .object ?_
    simp [Readable.string]
  cases node with
  | classDecl name children =>
    have hlist : Readable (.array (toJsonAll children)) := .array hchildren
    simp [members, Readable.string, hlist]
  | mainFunction children =>
    have hlist : Readable (.array (toJsonAll children)) := .array hchildren
    simp [members, hlist]
  | staticFunction name children =>
    have hlist : Readable (.array (toJsonAll children)) := .array hchildren
    simp [members, Readable.string, hlist]
  | call name result => cases result <;> simp [members, Readable.string, hbinding]
  | array name values =>
    have hvalues : Readable (numbersToJson values) := by
      refine .array fun value hvalue => ?_
      obtain ⟨x, hx, rfl⟩ := List.mem_map.mp hvalue
      exact .float (hnumbers x hx)
    simp [members, Readable.string, hvalues]
  | _ => simp [members, Readable.string]

theorem readable_toJson {node : Node} (h : ∀ member ∈ node.members, Readable member.2) :
    Readable node.toJson := by
  rw [toJson_eq]
  exact .object (List.forall_mem_cons.mpr ⟨.string _, h⟩)

theorem readable_members_of_toJson {node : Node} (h : Readable node.toJson) :
    ∀ member ∈ node.members, Readable member.2 := by
  rw [toJson_eq] at h
  cases h with
  | object hmembers => exact fun member hmember => hmembers member (List.mem_cons_of_mem _ hmember)

/-- Nodes can be read if all numbers in them can. -/
theorem readable_toJsonAll {above : NodePath} {nodes : List Node}
    (h : ∀ place ∈ locatedAll above nodes, ∀ x ∈ place.2.numbers, x.ReadsBack) :
    ∀ value ∈ toJsonAll nodes, Readable value := by
  induction nodes using Node.forestInduction generalizing above with
  | nil => simp [toJsonAll]
  | cons node rest below after =>
    rw [locatedAll_cons, List.forall_mem_cons, List.forall_mem_append] at h
    obtain ⟨hnode, hbelow, hafter⟩ := h
    rw [toJsonAll]
    exact List.forall_mem_cons.mpr
      ⟨readable_toJson (readable_members hnode (below hbelow)), after hafter⟩

/-- The members of a node behind its tag are collected, the last one in front. -/
theorem steps_members {tag : Tag} {list : List (String × Json)}
    (hkeys : ∀ member ∈ list, member.1 ≠ Tag.key)
    (hvalues : ∀ member ∈ list, Reads (Json.value nesting) member.2.chars member.2)
    (read : List (String × Json)) :
    Steps readMember (some tag, read) list (some tag, list.reverse ++ read) := by
  induction list generalizing read with
  | nil => exact .nil _
  | cons member rest ih =>
    obtain ⟨key, v⟩ := member
    obtain ⟨hkey, hkeys⟩ := List.forall_mem_cons.mp hkeys
    obtain ⟨hvalue, hvalues⟩ := List.forall_mem_cons.mp hvalues
    have hmember : Reads (readMember (some tag, read) key) (':' :: v.chars)
        (some tag, (key, v) :: read) := by
      intro tail hend
      rw [readMember, if_neg hkey]
      exact (reads_anyMember hvalue read key).map (fun others => (some tag, others)) hend
    rw [List.reverse_cons, List.append_assoc]
    exact .cons hmember (ih hkeys hvalues ((key, v) :: read))

/-- **A node is read from its text.** -/
theorem reads {node : Node} (hreadable : ∀ member ∈ node.members, Readable member.2)
    (hdepth : node.toJson.depth ≤ nesting + 1) : Reads Node.read node.toJson.chars node := by
  intro tail hend
  have hvalues : ∀ member ∈ node.members, Reads (Json.value nesting) member.2.chars member.2 := by
    intro member hmember
    -- the node's own bracket is not among those counted for its members
    have hle := depth_le_depthMembers (List.mem_cons_of_mem ("type", .string node.tag.text) hmember)
    rw [toJson_eq, depth] at hdepth
    exact reads_value (hreadable member hmember) nesting (by omega)
  have hsteps : Steps readMember (none, []) (("type", .string node.tag.text) :: node.members)
      (some node.tag, node.members.reverse ++ []) :=
    .cons ((Tag.reads node.tag).map fun tag => (some tag, []))
      (steps_members node.members_ne_key hvalues [])
  have hmembers := hsteps.members_objectBody tail
  have hnode := Tag.ofMembers_members node (asNodes_toJsonAll node.children)
  rw [toJson_eq, chars_object]
  simp only [Node.read, List.cons_append, skipBlanks_cons (c := '\x7b') rfl, hmembers, bind,
    Except.bind, List.append_nil, List.reverse_reverse]
  change placed (node.tag.ofMembers (memberParts node.members)) tail = _
  rw [hnode]
  rfl

end Node

/-- The numbers of a document: those of its arrays and of its training data. -/
def Document.numbers (document : Document) : List Binary64 :=
  (document.program.located.flatMap fun place => place.2.numbers) ++
    document.resources.datasets.entries.flatMap fun entry =>
      entry.2.pairs.flatMap fun pair => pair.input ++ pair.ideal

/-- **A document is read from its text.** -/
theorem Document.reads {document : Document} (hnumbers : ∀ x ∈ document.numbers, x.ReadsBack)
    (hdepth : document.toJson.depth ≤ 127) :
    Reads Document.readStart document.toJson.chars document := by
  rw [numbers, List.forall_mem_append] at hnumbers
  simp only [List.mem_flatMap, forall_exists_index, and_imp] at hnumbers
  obtain ⟨harrays, hdata⟩ := hnumbers
  have hreadable := Node.readable_toJsonAll fun place hplace x hx => harrays x place hplace hx
  have hnodes : ∀ node ∈ document.program.nodes, Reads Node.read node.toJson.chars node := by
    intro node hnode
    have hmem : node.toJson ∈ Node.toJsonAll document.program.nodes := by
      rw [Node.toJsonAll_eq_map]
      exact List.mem_map_of_mem hnode
    refine Node.reads (Node.readable_members_of_toJson (hreadable _ hmem)) ?_
    -- the document and the program are two of the brackets around a node
    have hitem := depth_le_depthItems hmem
    rw [toJson, depth, depthMembers, Program.toJson, depth] at hdepth
    rw [Node.nesting]
    omega
  have hprogram : Reads (readList Node.read) document.program.toJson.chars
      document.program.nodes := by
    rw [Program.toJson, Node.toJsonAll_eq_map]
    exact reads_readList hnodes
  have hstore := Store.reads fun entry hentry pair hpair x hx => hdata x entry hentry pair hpair hx
  have hprogram := hprogram.map fun nodes =>
    ((some nodes, none) : Option (List Node) × Option Store)
  have hstore := hstore.map fun store => (some document.program.nodes, some store)
  exact Form.reads_object (.cons (Form.reads_member rfl rfl hprogram)
    (.cons (Form.reads_member rfl rfl hstore) (.nil _))) rfl

/-- **A document is read as it was written.** If every number in it is finite and is read back by
itself, and its brackets are no more than 127 around one another, the text of a document is read,
and as the same document. -/
theorem document_round_trip {document : Document}
    (hnumbers : ∀ x ∈ document.numbers, x.ReadsBack) (hdepth : document.toJson.depth ≤ 127) :
    Document.ofText document.toJson.text = .ok document := by
  have hread := Document.reads hnumbers hdepth ends_nil
  rw [List.append_nil] at hread
  have hall : Document.readAll document.toJson.chars = .ok document := by
    rw [Document.readAll, hread]
    rfl
  rw [Document.ofText, Json.text, String.toList_ofList, hall]

/-- Escapes, a negative zero, a call without and one with a result, a model without a recipe under a
reference that is not spelled plainly. -/
theorem document_round_trip_escapes :
    let document : Document :=
      { program := ⟨[.classDecl "Foo \"\x01\n" [.mainFunction [.call "f" none],
          .call "net" (some ⟨"MLMethod", "network"⟩), .array "A" [⟨0x3fb999999999999a⟩]]]⟩
        resources := { models := Table.empty.insert ⟨"./nets//a.eg"⟩ ⟨"BasicNetwork", none⟩
                       datasets := Table.empty.insert ⟨"xor.egb"⟩
                         ⟨[⟨[⟨0x8000000000000000⟩], []⟩], Dataset.fault?_eq_none_iff.mp rfl⟩ } }
    document.numbers = [⟨0x3fb999999999999a⟩, ⟨0x8000000000000000⟩] ∧
      document.toJson.depth ≤ 127 ∧ Document.ofText document.toJson.text = .ok document := by
  intro document
  have hnumbers : document.numbers = [⟨0x3fb999999999999a⟩, ⟨0x8000000000000000⟩] := rfl
  have hdepth : document.toJson.depth ≤ 127 := by decide
  refine ⟨hnumbers, hdepth, document_round_trip (fun x hx => ?_) hdepth⟩
  rw [hnumbers] at hx
  simp only [List.mem_cons, List.not_mem_nil, or_false] at hx
  rcases hx with rfl | rfl
  · exact ⟨rfl, rfl⟩
  · exact ⟨rfl, rfl⟩

end NetScribe
