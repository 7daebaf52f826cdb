import NetScribe.Proofs.FilePaths

/-!
# What stands in a file tree

A place of a tree is looked at without listing directories: it holds nothing, a directory, or a file
with some content (`Tree.entryAt`). Writing a file beside others and taking one away change what is
seen at one place and nothing else (`entryAt_put`, `entryAt_erase`). Directories list their entries
in the order of their names (`Tree.WellFormed`), which both keep; a tree in order is told by what is
seen of it (`WellFormed.ext`).
-/

namespace NetScribe.Files

/-- What is seen at a place. -/
inductive Entry where
  | file (content : ByteArray)
  | directory

instance : DecidableEq Entry
  | .file content, .file other =>
    have : Decidable (content = other) := ByteArray.instDecidableEq content other
    decidable_of_iff (content = other) ⟨congrArg Entry.file, Entry.file.inj⟩
  | .file _, .directory => isFalse Entry.noConfusion
  | .directory, .file _ => isFalse Entry.noConfusion
  | .directory, .directory => isTrue rfl

namespace Tree

/-- A tree as it is seen from outside. -/
def entry : Tree → Entry
  | .file content => .file content
  | .directory _ => .directory

/-- What is seen at a place of a tree. -/
def entryAt (tree : Tree) (place : List String) : Option Entry :=
  (tree.get? place).map entry

/-- Names can stand where they stand, and come in order, all the way down. -/
inductive WellFormed : Tree → Prop
  | file (content : ByteArray) : WellFormed (.file content)
  | directory {entries : List (String × Tree)} :
      entries.Pairwise (fun a b => a.1 < b.1) → (∀ entry ∈ entries, IsName entry.1) →
      (∀ entry ∈ entries, WellFormed entry.2) → WellFormed (.directory entries)

mutual

/-- `WellFormed` as a check. -/
def isWellFormed : Tree → Bool
  | file _ => true
  | directory entries =>
    decide (entries.Pairwise fun a b => a.1 < b.1) && areWellFormed entries

@[inherit_doc isWellFormed]
def areWellFormed : List (String × Tree) → Bool
  | [] => true
  | (name, tree) :: rest => decide (IsName name) && isWellFormed tree && areWellFormed rest

end

mutual

/-- A tree that passes the check is well-formed. -/
theorem WellFormed.of_check : ∀ {tree : Tree}, tree.isWellFormed → tree.WellFormed
  | .file content, _ => .file content
  | .directory entries, h => by
    rw [isWellFormed, Bool.and_eq_true, decide_eq_true_eq] at h
    obtain ⟨hnames, hentries⟩ := wellFormed_of_check h.2
    exact .directory h.1 hnames hentries

@[inherit_doc WellFormed.of_check]
theorem wellFormed_of_check : ∀ {entries : List (String × Tree)}, areWellFormed entries →
    (∀ entry ∈ entries, IsName entry.1) ∧ ∀ entry ∈ entries, entry.2.WellFormed
  | [], _ => ⟨by simp, by simp⟩
  | (name, tree) :: rest, h => by
    rw [areWellFormed, Bool.and_eq_true, Bool.and_eq_true, decide_eq_true_eq] at h
    obtain ⟨hnames, hentries⟩ := wellFormed_of_check h.2
    exact ⟨List.forall_mem_cons.mpr ⟨h.1.1, hnames⟩,
      List.forall_mem_cons.mpr ⟨WellFormed.of_check h.1.2, hentries⟩⟩

end

variable {tree : Tree} {entries : List (String × Tree)} {name : String} {place : List String}

@[simp] theorem entryAt_nil (tree : Tree) : tree.entryAt [] = some tree.entry := rfl

theorem entryAt_directory_cons (entries : List (String × Tree)) (name : String)
    (place : List String) :
    (directory entries).entryAt (name :: place) =
      (entries.lookup name).bind fun below => below.entryAt place := by
  change ((entries.lookup name).bind fun below => below.get? place).map entry = _
  cases entries.lookup name <;> rfl

theorem entry_eq_directory : tree.entry = .directory ↔ ∃ entries, tree = .directory entries := by
  cases tree <;> simp [entry]

theorem entryAt_eq_directory :
    tree.entryAt place = some .directory ↔
      ∃ entries, tree.get? place = some (.directory entries) := by
  unfold entryAt
  rw [Option.map_eq_some_iff]
  constructor
  · rintro ⟨found, hfound, hentry⟩
    obtain ⟨entries, rfl⟩ := entry_eq_directory.mp hentry
    exact ⟨entries, hfound⟩
  · rintro ⟨entries, hentries⟩
    exact ⟨_, hentries, rfl⟩

theorem entryAt_eq_file {content : ByteArray} :
    tree.entryAt place = some (.file content) ↔ tree.get? place = some (.file content) := by
  unfold entryAt
  rw [Option.map_eq_some_iff]
  constructor
  · rintro ⟨found, hfound, hentry⟩
    cases found with
    | file other =>
      rw [entry, Entry.file.injEq] at hentry
      rw [hfound, hentry]
    | directory entries => cases hentry
  · intro h
    exact ⟨_, h, rfl⟩

theorem get?_append (tree : Tree) (front back : List String) :
    tree.get? (front ++ back) = (tree.get? front).bind fun below => below.get? back := by
  induction front generalizing tree with
  | nil => rfl
  | cons name front ih =>
    change (tree.child? name).bind (fun below => below.get? (front ++ back)) =
      ((tree.child? name).bind fun below => below.get? front).bind _
    cases tree.child? name with
    | none => rfl
    | some below => exact ih below

/-- Something stands below a place only if that is a directory. -/
theorem entryAt_of_below {front : List String} {found : Tree}
    (h : tree.get? (front ++ name :: place) = some found) :
    tree.entryAt front = some .directory := by
  rw [get?_append] at h
  obtain ⟨holder, hholder, hbelow⟩ := Option.bind_eq_some_iff.mp h
  cases holder with
  | file content => cases hbelow
  | directory entries => exact entryAt_eq_directory.mpr ⟨entries, hholder⟩

/-- What stands above a directory is a directory. -/
theorem entryAt_of_append {front back : List String}
    (h : tree.entryAt (front ++ back) = some .directory) :
    tree.entryAt front = some .directory := by
  cases back with
  | nil => rwa [List.append_nil] at h
  | cons name back =>
    obtain ⟨entries, hentries⟩ := entryAt_eq_directory.mp h
    exact entryAt_of_below hentries

/-- Above a directory stands a directory; the top is above itself. -/
theorem entryAt_dropLast {place : List String} (h : tree.entryAt place = some .directory) :
    tree.entryAt place.dropLast = some .directory := by
  cases hback : place.getLast? with
  | none =>
    rw [List.getLast?_eq_none_iff.mp hback] at h ⊢
    exact h
  | some last =>
    obtain ⟨front, rfl⟩ := List.getLast?_eq_some_iff.mp hback
    rw [List.dropLast_concat]
    exact entryAt_of_append h

/-! ## Entries of a directory -/

theorem lookup_cons_ite (other : String) (head : String × Tree) (rest : List (String × Tree)) :
    (head :: rest).lookup other = if other = head.1 then some head.2 else rest.lookup other := by
  rw [List.lookup_cons]
  by_cases h : other = head.1
  · rw [beq_iff_eq.mpr h, if_pos h]
  · rw [beq_eq_false_iff_ne.mpr h, if_neg h]

theorem lookup_setEntry (name other : String) (tree : Tree) (entries : List (String × Tree)) :
    (setEntry name tree entries).lookup other =
      if other = name then some tree else entries.lookup other := by
  induction entries with
  | nil => exact lookup_cons_ite other (name, tree) []
  | cons head rest ih =>
    obtain ⟨first, old⟩ := head
    unfold setEntry
    split
    · rw [lookup_cons_ite]
    · split
      · next hlt =>
        rw [lookup_cons_ite, ih, lookup_cons_ite]
        by_cases h : other = name
        · have hne : other ≠ first := fun heq => String.lt_irrefl first ((heq.symm.trans h) ▸ hlt)
          rw [if_neg hne, if_pos h, if_pos h]
        · rw [if_neg h, if_neg h]
      · next hnot hnot' =>
        -- neither name comes before the other, so the old entry is replaced
        have hsame : first = name := String.le_antisymm hnot hnot'
        subst hsame
        rw [lookup_cons_ite, lookup_cons_ite]
        split <;> rfl

theorem mem_setEntry {tree : Tree} {entry : String × Tree}
    (h : entry ∈ setEntry name tree entries) : entry = (name, tree) ∨ entry ∈ entries := by
  induction entries with
  | nil => exact Or.inl (List.mem_singleton.mp h)
  | cons head rest ih =>
    obtain ⟨first, old⟩ := head
    unfold setEntry at h
    split at h
    · exact List.mem_cons.mp h
    · split at h
      · rcases List.mem_cons.mp h with rfl | hrest
        · exact Or.inr List.mem_cons_self
        · exact (ih hrest).imp id (List.mem_cons_of_mem _)
      · rcases List.mem_cons.mp h with rfl | hrest
        · exact Or.inl rfl
        · exact Or.inr (List.mem_cons_of_mem _ hrest)

theorem pairwise_setEntry (tree : Tree) (h : entries.Pairwise fun a b => a.1 < b.1) :
    (setEntry name tree entries).Pairwise fun a b => a.1 < b.1 := by
  induction entries with
  | nil => exact List.pairwise_singleton _ _
  | cons head rest ih =>
    obtain ⟨first, old⟩ := head
    obtain ⟨hfirst, hrest⟩ := List.pairwise_cons.mp h
    unfold setEntry
    split
    · next hlt =>
      refine List.pairwise_cons.mpr ⟨fun entry hentry => ?_, h⟩
      rcases List.mem_cons.mp hentry with rfl | hentry
      · exact hlt
      · exact String.lt_trans hlt (hfirst entry hentry)
    · split
      · next hlt =>
        refine List.pairwise_cons.mpr ⟨fun entry hentry => ?_, ih hrest⟩
        rcases mem_setEntry hentry with rfl | hentry
        · exact hlt
        · exact hfirst entry hentry
      · next hnot hnot' =>
        have hsame : first = name := String.le_antisymm hnot hnot'
        subst hsame
        exact List.pairwise_cons.mpr ⟨hfirst, hrest⟩

theorem lookup_eq_of_mem {tree : Tree} (h : entries.Pairwise fun a b => a.1 < b.1)
    (hmem : (name, tree) ∈ entries) : entries.lookup name = some tree := by
  induction entries with
  | nil => cases hmem
  | cons head rest ih =>
    obtain ⟨hfirst, hrest⟩ := List.pairwise_cons.mp h
    rw [lookup_cons_ite]
    rcases List.mem_cons.mp hmem with rfl | hmem
    · exact if_pos rfl
    · have hne : name ≠ head.1 := fun heq => String.lt_irrefl head.1 (heq ▸ hfirst _ hmem)
      rw [if_neg hne, ih hrest hmem]

theorem mem_of_lookup {tree : Tree} (h : entries.lookup name = some tree) :
    (name, tree) ∈ entries := by
  induction entries with
  | nil => cases h
  | cons head rest ih =>
    rw [lookup_cons_ite] at h
    split at h
    · next heq =>
      obtain rfl := Option.some.inj h
      rw [heq]
      exact List.mem_cons_self
    · exact List.mem_cons_of_mem _ (ih h)

theorem lookup_filter_ne (name other : String) (entries : List (String × Tree)) :
    (entries.filter fun entry => entry.1 != name).lookup other =
      if other = name then none else entries.lookup other := by
  induction entries with
  | nil => exact (ite_self none).symm
  | cons head rest ih =>
    rw [List.filter_cons, lookup_cons_ite]
    by_cases hfirst : head.1 = name
    · rw [if_neg (by simpa using hfirst), ih, hfirst]
      split <;> rfl
    · rw [if_pos (by simpa using hfirst), lookup_cons_ite, ih]
      by_cases h : other = name
      · rw [if_neg fun heq => hfirst (heq.symm.trans h), if_pos h, if_pos h]
      · rw [if_neg h, if_neg h]

theorem entryAt_setEntry (name : String) (tree : Tree) (entries : List (String × Tree))
    (first : String) (rest : List String) :
    (directory (setEntry name tree entries)).entryAt (first :: rest) =
      if first = name then tree.entryAt rest else (directory entries).entryAt (first :: rest) := by
  rw [entryAt_directory_cons, lookup_setEntry, entryAt_directory_cons]
  split <;> rfl

/-- A change at one place below an entry is a change at one place below the directory. -/
theorem entryAt_setEntry_below {step : String} {below new : Tree} {seen : Option Entry}
    (hbelow : entries.lookup step = some below)
    (hnew : ∀ other, new.entryAt other = if other = place then seen else below.entryAt other)
    (other : List String) :
    (directory (setEntry step new entries)).entryAt other =
      if other = step :: place then seen else (directory entries).entryAt other := by
  cases other with
  | nil => rfl
  | cons first rest =>
    rw [entryAt_setEntry]
    by_cases hname : first = step
    · subst hname
      rw [if_pos rfl, hnew, entryAt_directory_cons, hbelow]
      simp only [List.cons.injEq, true_and, Option.bind_some]
    · rw [if_neg hname, if_neg fun h => hname (List.cons.inj h).1]

/-- Nothing is below what is no directory. -/
theorem entryAt_below_file {first second : String} {rest : List String}
    (h : (directory entries).entryAt [first] ≠ some .directory) :
    (directory entries).entryAt (first :: second :: rest) = none := by
  rw [entryAt_directory_cons] at h ⊢
  cases hold : entries.lookup first with
  | none => rfl
  | some old =>
    cases old with
    | file old => rfl
    | directory inner =>
      rw [hold] at h
      exact absurd rfl h

/-- A directory on the way to a place: the tree is one, and so is what it holds under the first
name. -/
theorem exists_of_entryAt_cons {step : String} {front : List String}
    (h : tree.entryAt (step :: front) = some .directory) :
    ∃ entries below, tree = .directory entries ∧ entries.lookup step = some below ∧
      below.entryAt front = some .directory := by
  cases tree with
  | file content => cases h
  | directory entries =>
    rw [entryAt_directory_cons] at h
    obtain ⟨below, hbelow, hdir⟩ := Option.bind_eq_some_iff.mp h
    exact ⟨entries, below, rfl, hbelow, hdir⟩

/-! ## Writing a file -/

theorem put_cons {step : String} {below new : Tree} (h : entries.lookup step = some below) :
    (directory entries).put (step :: place) new =
      .directory (setEntry step (below.put place new) entries) := by
  rw [put]
  change directory (setEntry step (((entries.lookup step).getD default).put place new) entries) = _
  rw [h]
  rfl

/-- **A file written beside others is seen at its place**, and nothing else changes. -/
theorem entryAt_put {front : List String} {content : ByteArray}
    (hfront : tree.entryAt front = some .directory)
    (hplace : tree.entryAt (front ++ [name]) ≠ some .directory) (other : List String) :
    (tree.put (front ++ [name]) (.file content)).entryAt other =
      if other = front ++ [name] then some (.file content) else tree.entryAt other := by
  induction front generalizing tree other with
  | nil =>
    obtain ⟨entries, rfl⟩ := entry_eq_directory.mp (Option.some.inj hfront)
    cases other with
    | nil => rfl
    | cons first rest =>
      change (directory (setEntry name (.file content) entries)).entryAt (first :: rest) =
        if first :: rest = [name] then _ else _
      rw [entryAt_setEntry]
      by_cases hname : first = name
      · subst hname
        rw [if_pos rfl]
        cases rest with
        | nil => rw [if_pos rfl]; rfl
        | cons second rest =>
          -- what was there is no directory either
          rw [if_neg (by simp), entryAt_below_file hplace]
          rfl
      · rw [if_neg hname, if_neg fun h => hname (List.cons.inj h).1]
  | cons step front ih =>
    obtain ⟨entries, below, rfl, hbelow, hdir⟩ := exists_of_entryAt_cons hfront
    rw [List.cons_append, entryAt_directory_cons, hbelow] at hplace
    rw [List.cons_append, put_cons hbelow]
    exact entryAt_setEntry_below hbelow (ih hdir hplace) other

/-- A directory stays in order when one of its entries is set to a tree in order. -/
theorem WellFormed.setEntry {below : Tree} (h : (Tree.directory entries).WellFormed)
    (hname : IsName name) (hbelow : below.WellFormed) :
    (Tree.directory (Tree.setEntry name below entries)).WellFormed := by
  cases h with
  | directory hsorted hnames hentries =>
    refine .directory (pairwise_setEntry _ hsorted) (fun entry hentry => ?_) fun entry hentry => ?_
    · rcases mem_setEntry hentry with rfl | hentry
      · exact hname
      · exact hnames entry hentry
    · rcases mem_setEntry hentry with rfl | hentry
      · exact hbelow
      · exact hentries entry hentry

theorem WellFormed.of_lookup {below : Tree} (h : (Tree.directory entries).WellFormed)
    (hbelow : entries.lookup name = some below) : IsName name ∧ below.WellFormed := by
  cases h with
  | directory hsorted hnames hentries =>
    exact ⟨hnames _ (mem_of_lookup hbelow), hentries _ (mem_of_lookup hbelow)⟩

theorem WellFormed.put {front : List String} {content : ByteArray} (h : tree.WellFormed)
    (hfront : tree.entryAt front = some .directory) (hname : IsName name) :
    (tree.put (front ++ [name]) (.file content)).WellFormed := by
  induction front generalizing tree with
  | nil =>
    obtain ⟨entries, rfl⟩ := entry_eq_directory.mp (Option.some.inj hfront)
    exact h.setEntry hname (.file content)
  | cons step front ih =>
    obtain ⟨entries, below, rfl, hbelow, hdir⟩ := exists_of_entryAt_cons hfront
    obtain ⟨hstep, hwell⟩ := h.of_lookup hbelow
    rw [List.cons_append, put_cons hbelow]
    exact h.setEntry hstep (ih hwell hdir)

/-! ## Taking a file away -/

theorem erase_cons {step : String} {below : Tree} (h : entries.lookup step = some below)
    (hplace : place ≠ []) :
    (directory entries).erase (step :: place) =
      .directory (setEntry step (below.erase place) entries) := by
  have hchild : (directory entries).child? step = some below := h
  obtain ⟨second, rest, rfl⟩ := List.exists_cons_of_ne_nil hplace
  simp only [erase, hchild]
  rfl

/-- **A file taken away is not seen any more**, and nothing else changes. -/
theorem entryAt_erase {front : List String} {content : ByteArray}
    (hplace : tree.entryAt (front ++ [name]) = some (.file content)) (other : List String) :
    (tree.erase (front ++ [name])).entryAt other =
      if other = front ++ [name] then none else tree.entryAt other := by
  induction front generalizing tree other with
  | nil =>
    cases tree with
    | file content => cases hplace
    | directory entries =>
      change (directory (entries.filter fun entry => entry.1 != name)).entryAt other =
        if other = [name] then none else _
      cases other with
      | nil => rfl
      | cons first rest =>
        rw [entryAt_directory_cons, lookup_filter_ne, entryAt_directory_cons]
        by_cases hname : first = name
        · subst hname
          rw [if_pos rfl]
          cases rest with
          | nil => rw [if_pos rfl]; rfl
          | cons second rest =>
            have hfile : (directory entries).entryAt [first] ≠ some .directory := by
              rw [← List.nil_append [first], hplace]
              simp
            rw [if_neg (by simp), ← entryAt_directory_cons, entryAt_below_file hfile]
            rfl
        · rw [if_neg hname, if_neg fun h => hname (List.cons.inj h).1]
  | cons step front ih =>
    cases tree with
    | file content => cases hplace
    | directory entries =>
      rw [List.cons_append, entryAt_directory_cons] at hplace
      obtain ⟨below, hbelow, hfile⟩ := Option.bind_eq_some_iff.mp hplace
      rw [List.cons_append, erase_cons hbelow (by simp)]
      exact entryAt_setEntry_below hbelow (ih hfile) other

theorem WellFormed.erase {front : List String} {entry : Entry} (h : tree.WellFormed)
    (hplace : tree.entryAt (front ++ [name]) = some entry) :
    (tree.erase (front ++ [name])).WellFormed := by
  induction front generalizing tree with
  | nil =>
    cases h with
    | file content => cases hplace
    | directory hsorted hnames hentries =>
      exact .directory (hsorted.filter _)
        (fun entry hentry => hnames entry (List.mem_filter.mp hentry).1)
        fun entry hentry => hentries entry (List.mem_filter.mp hentry).1
  | cons step front ih =>
    cases tree with
    | file content => cases hplace
    | directory entries =>
      rw [List.cons_append, entryAt_directory_cons] at hplace
      obtain ⟨below, hbelow, hfound⟩ := Option.bind_eq_some_iff.mp hplace
      obtain ⟨hstep, hwell⟩ := h.of_lookup hbelow
      rw [List.cons_append, erase_cons hbelow (by simp)]
      exact h.setEntry hstep (ih hwell hfound)

/-! ## Trees told by what is seen of them -/

/-- Lists in the order of their names are the same if they hold the same. -/
theorem eq_of_mem_iff {α : Type} {first second : List (String × α)}
    (h : first.Pairwise fun a b => a.1 < b.1) (h' : second.Pairwise fun a b => a.1 < b.1)
    (hmem : ∀ entry, entry ∈ first ↔ entry ∈ second) : first = second := by
  have hnodup : ∀ list : List (String × α), list.Pairwise (fun a b => a.1 < b.1) → list.Nodup := by
    intro list hlist
    refine hlist.imp fun {a b} hlt heq => ?_
    rw [heq] at hlt
    exact String.lt_irrefl _ hlt
  refine List.Perm.eq_of_pairwise (fun a b _ _ hab hba => ?_) h h'
    ((List.perm_ext_iff_of_nodup (hnodup _ h) (hnodup _ h')).mpr hmem)
  exact absurd (String.lt_trans hab hba) (String.lt_irrefl _)

theorem WellFormed.ext {other : Tree} (h : tree.WellFormed) (h' : other.WellFormed)
    (hsame : ∀ place, tree.entryAt place = other.entryAt place) : tree = other := by
  induction h generalizing other with
  | file content =>
    have htop := hsame []
    cases h' with
    | file content' =>
      rw [entryAt_nil, entryAt_nil, Option.some.injEq] at htop
      rw [Entry.file.inj htop]
    | directory => cases htop
  | @directory entries hsorted hnames hentries ih =>
    cases h' with
    | file content' => cases hsame []
    | @directory entries' hsorted' hnames' hentries' =>
      have hlookup : ∀ name, entries.lookup name = entries'.lookup name := by
        intro name
        have hbelow : ∀ place, ((entries.lookup name).bind fun below => below.entryAt place) =
            (entries'.lookup name).bind fun below => below.entryAt place := by
          intro place
          rw [← entryAt_directory_cons, ← entryAt_directory_cons]
          exact hsame (name :: place)
        cases hfirst : entries.lookup name with
        | none =>
          cases hsecond : entries'.lookup name with
          | none => rfl
          | some below' =>
            rw [hfirst, hsecond] at hbelow
            cases hbelow []
        | some below =>
          cases hsecond : entries'.lookup name with
          | none =>
            rw [hfirst, hsecond] at hbelow
            cases hbelow []
          | some below' =>
            rw [hfirst, hsecond] at hbelow
            exact congrArg some (ih (name, below) (mem_of_lookup hfirst)
              (hentries' (name, below') (mem_of_lookup hsecond)) hbelow)
      rw [eq_of_mem_iff hsorted hsorted' fun entry => ?_]
      constructor
      · exact fun hmem =>
          mem_of_lookup ((hlookup entry.1).symm.trans (lookup_eq_of_mem hsorted hmem))
      · exact fun hmem =>
          mem_of_lookup ((hlookup entry.1).trans (lookup_eq_of_mem hsorted' hmem))

end Tree

end NetScribe.Files
