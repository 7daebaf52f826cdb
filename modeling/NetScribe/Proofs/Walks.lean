import NetScribe.Proofs.Disks
import NetScribe.Proofs.Spellings

/-!
# Walking through a directory that is being written to

A walk lists a directory before what it holds, and names by their bytes. `Tree.reach` lists the
names that lead to each entry: all entries whose directories can be opened (`mem_reach`), in the
order of their names (`pairwise_reach`), so none twice.

A walk may also be taken while files are written: a `Walker` keeps the entries still to be visited,
and lists a directory only when it comes to it. If what is done at the chosen entries changes
nothing but files that are not chosen, the walker visits what was there at the start
(`Errand.Harmless.comes_walk`).
-/

namespace NetScribe.Files

namespace Tree

variable {tree : Tree} {entries : List (String × Tree)} {opens : Path → Bool}

/-! ## The entries that are reached -/

mutual

/-- What a tree holds is reached by the induction over entries. -/
theorem belowInduction {motive : List (String × Tree) → Prop} (nil : motive [])
    (cons : ∀ name tree rest, motive tree.entries → motive rest → motive ((name, tree) :: rest)) :
    ∀ tree : Tree, motive tree.entries
  | .file _ => nil
  | .directory entries => entriesInduction nil cons entries

/-- **Induction over entries**: a list has its first entry, what that one holds, and the entries
behind it. -/
@[elab_as_elim]
theorem entriesInduction {motive : List (String × Tree) → Prop} (nil : motive [])
    (cons : ∀ name tree rest, motive tree.entries → motive rest → motive ((name, tree) :: rest)) :
    ∀ entries : List (String × Tree), motive entries
  | [] => nil
  | (name, tree) :: rest =>
    cons name tree rest (belowInduction nil cons tree) (entriesInduction nil cons rest)

end

mutual

/-- The names that lead to the entries of a tree, in the order of a walk through it. -/
def reach (opens : Path → Bool) (path : Path) : Tree → List (List String)
  | file _ => [[]]
  | directory entries => [] :: if opens path then reachEntries opens path entries else []

@[inherit_doc reach]
def reachEntries (opens : Path → Bool) (path : Path) : List (String × Tree) → List (List String)
  | [] => []
  | (name, tree) :: rest =>
    (reach opens (path.join name) tree).map (name :: ·) ++ reachEntries opens path rest

end

theorem walk_eq (opens : Path → Bool) (path : Path) (tree : Tree) :
    tree.walk opens path =
      path :: if opens path then walkEntries opens path tree.entries else [] := by
  cases tree <;> simp [walk, walkEntries, Tree.entries]

theorem reach_eq (opens : Path → Bool) (path : Path) (tree : Tree) :
    tree.reach opens path =
      [] :: if opens path then reachEntries opens path tree.entries else [] := by
  cases tree <;> simp [reach, reachEntries, Tree.entries]

theorem walkEntries_eq_reach (path : Path) (entries : List (String × Tree)) :
    walkEntries opens path entries = (reachEntries opens path entries).map path.below := by
  induction entries using entriesInduction generalizing path with
  | nil => rfl
  | cons name tree rest below behind =>
    rw [walkEntries, reachEntries, List.map_append, ← behind path, walk_eq, reach_eq]
    congr 1
    rw [List.map_map, List.map_cons]
    change path.join name :: _ = path.join name :: List.map (path.join name).below _
    split
    · rw [below (path.join name)]
    · rfl

/-- **A walk shows the paths of the entries it reaches.** -/
theorem walk_eq_reach (opens : Path → Bool) (path : Path) (tree : Tree) :
    tree.walk opens path = (tree.reach opens path).map path.below := by
  rw [walk_eq, reach_eq, List.map_cons]
  split
  · rw [walkEntries_eq_reach]
    rfl
  · rfl

theorem mem_reachEntries {names : List String} (path : Path) :
    names ∈ reachEntries opens path entries ↔
      ∃ name tree rest, names = name :: rest ∧ (name, tree) ∈ entries ∧
        rest ∈ tree.reach opens (path.join name) := by
  induction entries with
  | nil => simp [reachEntries]
  | cons entry entries ih =>
    obtain ⟨first, below⟩ := entry
    rw [reachEntries, List.mem_append, ih, List.mem_map]
    constructor
    · rintro (⟨rest, hrest, rfl⟩ | ⟨name, tree, rest, rfl, hmem, hrest⟩)
      · exact ⟨first, below, rest, rfl, List.mem_cons_self, hrest⟩
      · exact ⟨name, tree, rest, rfl, List.mem_cons_of_mem _ hmem, hrest⟩
    · rintro ⟨name, tree, rest, rfl, hmem, hrest⟩
      rcases List.mem_cons.mp hmem with heq | hmem
      · obtain ⟨rfl, rfl⟩ := Prod.mk.inj heq
        exact Or.inl ⟨rest, hrest, rfl⟩
      · exact Or.inr ⟨name, tree, rest, rfl, hmem, hrest⟩

theorem WellFormed.mem_entries_iff {name : String} {below : Tree} (h : tree.WellFormed) :
    (name, below) ∈ tree.entries ↔ tree.child? name = some below := by
  cases h with
  | file content =>
    constructor
    · intro hmem
      cases hmem
    · intro hchild
      cases hchild
  | directory hsorted hnames hentries => exact ⟨lookup_eq_of_mem hsorted, mem_of_lookup⟩

theorem WellFormed.of_child {name : String} {below : Tree} (h : tree.WellFormed)
    (hchild : tree.child? name = some below) : IsName name ∧ below.WellFormed := by
  cases tree with
  | file content => cases hchild
  | directory entries => exact h.of_lookup hchild

theorem WellFormed.isName_of_get? {names : List String} (h : tree.WellFormed)
    (hfound : (tree.get? names).isSome) : ∀ name ∈ names, IsName name := by
  induction names generalizing tree with
  | nil =>
    intro name hname
    cases hname
  | cons first rest ih =>
    obtain ⟨found, hfound⟩ := Option.isSome_iff_exists.mp hfound
    obtain ⟨below, hchild, hbelow⟩ := Option.bind_eq_some_iff.mp hfound
    obtain ⟨hfirst, hwell⟩ := h.of_child hchild
    intro name hname
    rcases List.mem_cons.mp hname with rfl | hname
    · exact hfirst
    · exact ih hwell (by rw [hbelow]; rfl) name hname

theorem WellFormed.isName_last {front : List String} {name : String} {below : Tree}
    (h : tree.WellFormed) (hfound : tree.get? (front ++ [name]) = some below) : IsName name :=
  h.isName_of_get? (Option.isSome_iff_exists.mpr ⟨below, hfound⟩) name (by simp)

theorem WellFormed.of_get? {names : List String} {below : Tree} (h : tree.WellFormed)
    (hfound : tree.get? names = some below) : below.WellFormed := by
  induction names generalizing tree with
  | nil =>
    obtain rfl := Option.some.inj hfound
    exact h
  | cons first rest ih =>
    obtain ⟨inner, hchild, hinner⟩ := Option.bind_eq_some_iff.mp hfound
    exact ih (h.of_child hchild).2 hinner

/-- Opening goes up from a directory to those above it. -/
theorem opens_of_below
    (hopens : ∀ directory name, IsName name → opens (Path.join directory name) → opens directory)
    {names : List String} (hnames : ∀ name ∈ names, IsName name) (path : Path)
    (h : opens (path.below names)) : opens path := by
  induction names generalizing path with
  | nil => exact h
  | cons name names ih =>
    refine hopens path name (hnames name List.mem_cons_self) (ih ?_ _ h)
    exact fun other hother => hnames other (List.mem_cons_of_mem _ hother)

/-- **The entries that are reached**: all that are there, below directories that can be opened. A
directory above one that can be opened is taken to be one itself. -/
theorem mem_reach {names : List String} (hwell : tree.WellFormed)
    (hopens : ∀ directory name, IsName name → opens (Path.join directory name) → opens directory)
    (path : Path) :
    names ∈ tree.reach opens path ↔
      (tree.get? names).isSome ∧ (names = [] ∨ opens (path.below names.dropLast)) := by
  induction names generalizing tree path with
  | nil =>
    rw [reach_eq]
    exact iff_of_true List.mem_cons_self ⟨rfl, Or.inl rfl⟩
  | cons name rest ih =>
    have hmem : name :: rest ∈ tree.reach opens path ↔
        opens path ∧ ∃ below, tree.child? name = some below ∧
          rest ∈ below.reach opens (path.join name) := by
      rw [reach_eq, List.mem_cons]
      split
      · next hpath =>
        rw [mem_reachEntries]
        constructor
        · rintro (hnil | ⟨first, below, rest', heq, hentry, hrest⟩)
          · cases hnil
          · obtain ⟨rfl, rfl⟩ := List.cons.inj heq
            exact ⟨hpath, below, hwell.mem_entries_iff.mp hentry, hrest⟩
        · rintro ⟨-, below, hchild, hrest⟩
          exact Or.inr ⟨name, below, rest, rfl, hwell.mem_entries_iff.mpr hchild, hrest⟩
      · next hpath => simp [hpath]
    have hget : tree.get? (name :: rest) =
        (tree.child? name).bind fun below => below.get? rest := rfl
    rw [hmem, hget]
    cases hchild : tree.child? name with
    | none => simp
    | some below =>
      obtain ⟨hname, hbelow⟩ := hwell.of_child hchild
      simp only [Option.some.injEq, exists_eq_left', Option.bind_some, ih hbelow (path.join name)]
      cases rest with
      | nil => simp [Tree.get?]
      | cons second rest =>
        have hlast : path.below (name :: second :: rest).dropLast =
            (path.join name).below (second :: rest).dropLast := rfl
        rw [hlast]
        constructor
        · rintro ⟨-, hfound, hopen⟩
          exact ⟨hfound, Or.inr (hopen.resolve_left (by simp))⟩
        · rintro ⟨hfound, hopen⟩
          have hopen := hopen.resolve_left (by simp)
          have hnames := hbelow.isName_of_get? hfound
          refine ⟨hopens path name hname (opens_of_below hopens ?_ _ hopen), hfound, Or.inr hopen⟩
          exact fun other hother => hnames other (List.dropLast_subset _ hother)

/-! ## The order of a walk -/

/-- One name comes before another by its bytes. -/
def NameBefore (a b : String) : Prop :=
  Path.bytesOf a.toList < Path.bytesOf b.toList

theorem nameBefore_of_lt {a b : String} (h : a < b) : NameBefore a b := by
  refine Path.bytesOf_lt ?_
  have hletters := String.lt_iff.mp h
  generalize a.toList = s at hletters
  generalize b.toList = t at hletters
  induction hletters with
  | nil => exact List.Lex.nil
  | rel hrel => exact List.Lex.rel hrel
  | cons _ ih => exact List.Lex.cons ih

theorem WellFormed.inner (h : tree.WellFormed) : (Tree.directory tree.entries).WellFormed := by
  cases tree with
  | file content =>
    exact .directory List.Pairwise.nil (by simp [Tree.entries]) (by simp [Tree.entries])
  | directory entries => exact h

theorem pairwise_reachEntries (path : Path) (h : (directory entries).WellFormed) :
    (reachEntries opens path entries).Pairwise (List.Lex NameBefore) := by
  induction entries using entriesInduction generalizing path with
  | nil => exact List.Pairwise.nil
  | cons name tree rest below behind =>
    cases h with
    | directory hsorted hnames hentries =>
    obtain ⟨hfirst, hrest⟩ := List.pairwise_cons.mp hsorted
    rw [reachEntries, List.pairwise_append]
    refine ⟨?_, behind path (.directory hrest ?_ ?_), ?_⟩
    · -- all start with the same name, and an entry comes before what it holds
      have hinner := below (path.join name) (hentries (name, tree) List.mem_cons_self).inner
      rw [List.pairwise_map, reach_eq, List.pairwise_cons]
      refine ⟨fun inner hmem => ?_, ?_⟩
      · split at hmem
        · obtain ⟨second, _, more, rfl, -, -⟩ := (mem_reachEntries _).mp hmem
          exact List.Lex.cons List.Lex.nil
        · cases hmem
      · split
        · exact hinner.imp fun hlex => List.Lex.cons hlex
        · exact List.Pairwise.nil
    · exact fun entry hentry => hnames entry (List.mem_cons_of_mem _ hentry)
    · exact fun entry hentry => hentries entry (List.mem_cons_of_mem _ hentry)
    · intro first hmem second hmem'
      obtain ⟨inner, -, rfl⟩ := List.mem_map.mp hmem
      obtain ⟨other, below, more, rfl, hentry, -⟩ := (mem_reachEntries _).mp hmem'
      exact List.Lex.rel (nameBefore_of_lt (hfirst (other, below) hentry))

/-- **A walk comes to entries in the order of their names**: to a directory before what it holds,
and to one entry and all it holds before the next. -/
theorem pairwise_reach (path : Path) (h : tree.WellFormed) :
    (tree.reach opens path).Pairwise (List.Lex NameBefore) := by
  rw [reach_eq, List.pairwise_cons]
  refine ⟨fun inner hmem => ?_, ?_⟩
  · split at hmem
    · obtain ⟨second, _, more, rfl, -, -⟩ := (mem_reachEntries _).mp hmem
      exact List.Lex.nil
    · cases hmem
  · split
    · exact pairwise_reachEntries path h.inner
    · exact List.Pairwise.nil

/-- No two entries come before each other. -/
theorem lex_asymm {first second : List String} (h : List.Lex NameBefore first second) :
    ¬ List.Lex NameBefore second first := by
  induction h with
  | nil =>
    intro h'
    cases h'
  | rel hbefore =>
    intro h'
    cases h' with
    | rel hbefore' => exact List.lt_irrefl _ (List.lt_trans hbefore hbefore')
    | cons _ => exact List.lt_irrefl _ hbefore
  | cons hlex ih =>
    intro h'
    cases h' with
    | rel hbefore => exact List.lt_irrefl _ hbefore
    | cons hlex' => exact ih hlex'

theorem nodup_of_lex {names : List (List String)} (h : names.Pairwise (List.Lex NameBefore)) :
    names.Nodup := by
  refine h.imp fun {first second} hlex => ?_
  rintro rfl
  exact lex_asymm hlex hlex

/-- Lists in the order of a walk are the same if they hold the same. -/
theorem eq_of_lex {first second : List (List String)} (h : first.Pairwise (List.Lex NameBefore))
    (h' : second.Pairwise (List.Lex NameBefore)) (hmem : ∀ names, names ∈ first ↔ names ∈ second) :
    first = second := by
  refine List.Perm.eq_of_pairwise (fun a b _ _ hab hba => absurd hba (lex_asymm hab)) h h' ?_
  exact (List.perm_ext_iff_of_nodup (nodup_of_lex h) (nodup_of_lex h')).mpr hmem

end Tree

/-! ## A walk while files are written -/

/-- The entries of the directory a path leads to, with their kinds. -/
def Disk.listing (disk : Disk) (path : Path) : List (Path × EntryKind) :=
  match disk.lookup? path with
  | some tree => tree.entries.map fun entry => (path.join entry.1, entry.2.kind)
  | none => []

/-- What is done on a walk. -/
structure Errand (ν : Type) where
  /-- The entries at which something is done. -/
  chosen : Path → Bool
  /-- What is done there, and what is said of it. -/
  treat : Path → Disk → ν × Disk
  /-- What ends the walk. -/
  stops : ν → Bool

/-- How far an errand came. -/
structure Errand.Report (ν : Type) where
  said : List ν
  disk : Disk
  stopped : Bool

/-- An entry that makes a difference on a walk: something is done at it, or it is listed. -/
def Errand.counts {ν : Type} (errand : Errand ν) (entry : Path × EntryKind) : Bool :=
  decide (entry.2 = .directory) || errand.chosen entry.1

/-- An errand done at a list of entries that was made before. -/
def Errand.play {ν : Type} (errand : Errand ν) : List Path → Disk → Errand.Report ν
  | [], disk => ⟨[], disk, false⟩
  | path :: rest, disk =>
    let treated := errand.treat path disk
    if errand.stops treated.1 then ⟨[treated.1], treated.2, true⟩
    else
      let report := errand.play rest treated.2
      { report with said := treated.1 :: report.said }

/-- An errand on its way through a directory. -/
structure Walker (ν : Type) where
  disk : Disk
  /-- The entries still to be visited. -/
  pending : List (Path × EntryKind)
  said : List ν

namespace Walker

variable {ν : Type}

/-- Visit the next entry: a directory is listed as it is now. -/
def step (errand : Errand ν) (walker : Walker ν) : Walker ν :=
  match walker.pending with
  | [] => walker
  | (path, kind) :: rest =>
    let pending := (if kind = .directory then walker.disk.listing path else []) ++ rest
    if errand.chosen path then
      let treated := errand.treat path walker.disk
      { disk := treated.2
        pending := if errand.stops treated.1 then [] else pending
        said := walker.said ++ [treated.1] }
    else { walker with pending }

/-- Visit so many entries. -/
def run (errand : Errand ν) : Nat → Walker ν → Walker ν
  | 0, walker => walker
  | n + 1, walker => run errand n (walker.step errand)

/-- One state of a walk comes to another. -/
def Comes (errand : Errand ν) (walker walker' : Walker ν) : Prop :=
  ∃ n, walker.run errand n = walker'

variable {errand : Errand ν} {walker walker' walker'' : Walker ν}

theorem Comes.refl (walker : Walker ν) : walker.Comes errand walker := ⟨0, rfl⟩

theorem Comes.step (h : (walker.step errand).Comes errand walker') :
    walker.Comes errand walker' := by
  obtain ⟨n, hn⟩ := h
  exact ⟨n + 1, hn⟩

theorem Comes.trans (h : walker.Comes errand walker') (h' : walker'.Comes errand walker'') :
    walker.Comes errand walker'' := by
  obtain ⟨n, hn⟩ := h
  induction n generalizing walker with
  | zero =>
    obtain rfl : walker = walker' := hn
    exact h'
  | succ n ih => exact Comes.step (ih hn)

/-! ### Passing over entries -/

variable {disk before : Disk} {pending rest : List (Path × EntryKind)} {said : List ν}

theorem step_of_not_counts {entry : Path × EntryKind} (h : errand.counts entry = false) :
    (⟨disk, entry :: rest, said⟩ : Walker ν).step errand = ⟨disk, rest, said⟩ := by
  obtain ⟨hkind, hchosen⟩ := Bool.or_eq_false_iff.mp h
  unfold step
  simp [decide_eq_false_iff_not.mp hkind, hchosen]

/-- Entries that do not count are passed over. -/
theorem comes_of_filter_nil (h : pending.filter errand.counts = []) :
    (⟨disk, pending ++ rest, said⟩ : Walker ν).Comes errand ⟨disk, rest, said⟩ := by
  induction pending with
  | nil => exact Comes.refl _
  | cons entry pending ih =>
    have hnone := List.filter_eq_nil_iff.mp h
    refine Comes.step ?_
    rw [List.cons_append, step_of_not_counts]
    · exact ih (List.filter_eq_nil_iff.mpr fun other hother =>
        hnone other (List.mem_cons_of_mem _ hother))
    · simpa using hnone entry List.mem_cons_self

/-- The first entry that counts is come to. -/
theorem comes_of_filter_cons {entry : Path × EntryKind} {more : List (Path × EntryKind)}
    (h : pending.filter errand.counts = entry :: more) (disk : Disk)
    (rest : List (Path × EntryKind)) (said : List ν) :
    ∃ behind, (⟨disk, pending ++ rest, said⟩ : Walker ν).Comes errand
        ⟨disk, entry :: (behind ++ rest), said⟩ ∧ behind.filter errand.counts = more := by
  induction pending with
  | nil => cases h
  | cons first pending ih =>
    cases hfirst : errand.counts first with
    | true =>
      rw [List.filter_cons_of_pos hfirst] at h
      obtain ⟨rfl, hmore⟩ := List.cons.inj h
      exact ⟨pending, Comes.refl _, hmore⟩
    | false =>
      rw [List.filter_cons_of_neg (by simp [hfirst])] at h
      obtain ⟨behind, hcomes, hbehind⟩ := ih h
      refine ⟨behind, Comes.step ?_, hbehind⟩
      rw [List.cons_append, step_of_not_counts hfirst]
      exact hcomes

/-! ### One walk and the other -/

/-- How a walk goes on when an errand came so far. -/
def leaves (report : Errand.Report ν) (rest : List (Path × EntryKind)) (said : List ν) : Walker ν :=
  ⟨report.disk, if report.stopped then [] else rest, said ++ report.said⟩

theorem play_append (first second : List Path) (disk : Disk) :
    errand.play (first ++ second) disk =
      let report := errand.play first disk
      if report.stopped then report
      else
        let report' := errand.play second report.disk
        { report' with said := report.said ++ report'.said } := by
  induction first generalizing disk with
  | nil => rfl
  | cons path first ih =>
    rw [List.cons_append, Errand.play, Errand.play]
    simp only [ih]
    by_cases hstops : errand.stops (errand.treat path disk).1 = true
    · simp [hstops]
    · simp only [hstops, if_false, Bool.false_eq_true]
      split <;> simp

/-- Nothing is to be done. -/
theorem comes_nil (disk : Disk) (rest : List (Path × EntryKind)) (said : List ν) :
    (⟨disk, [] ++ rest, said⟩ : Walker ν).Comes errand
      (leaves (errand.play [] disk) rest said) := by
  unfold leaves
  rw [Errand.play, List.append_nil]
  exact Comes.refl _

/-- Two parts of an errand, one behind the other. -/
theorem comes_append {first second : List Path} {more : List (Path × EntryKind)}
    (h : walker.Comes errand (leaves (errand.play first disk) more said))
    (h' : (⟨(errand.play first disk).disk, more, said ++ (errand.play first disk).said⟩ :
        Walker ν).Comes errand
      (leaves (errand.play second (errand.play first disk).disk) rest
        (said ++ (errand.play first disk).said))) :
    walker.Comes errand (leaves (errand.play (first ++ second) disk) rest said) := by
  rw [play_append]
  cases hstopped : (errand.play first disk).stopped with
  | true =>
    simp only [leaves, hstopped, if_true] at h ⊢
    exact h
  | false =>
    simp only [leaves, hstopped, Bool.false_eq_true, if_false] at h h' ⊢
    rw [← List.append_assoc]
    exact h.trans h'

end Walker

/-! ### What is listed on the way -/

/-- A path that a walk can come to: a directory, or a name in one. -/
def Disk.Visits (disk : Disk) (path : Path) : Prop :=
  (∃ target, disk.Opens path target) ∨
    ∃ directory holder name, disk.Opens directory holder ∧ IsName name ∧ path = directory.join name

/-- An errand that changes nothing but files at which nothing is done. -/
structure Errand.Harmless {ν : Type} (errand : Errand ν) (free : String → Prop) (before : Disk) :
    Prop where
  chosen : ∀ directory name, IsName name → errand.chosen (Path.join directory name) → ¬ free name
  treat : ∀ path disk, before.Visits path → errand.chosen path → before.ChangedOnly free disk →
    before.ChangedOnly free (errand.treat path disk).2

/-- Entries as they are listed. -/
def Tree.kinds (entries : List (String × Tree)) : List (String × EntryKind) :=
  entries.map fun entry => (entry.1, entry.2.kind)

/-- The kind of what is seen at a place. -/
def Entry.kind : Entry → EntryKind
  | .file _ => .file
  | .directory => .directory

section

variable {ν : Type} {errand : Errand ν} {free : String → Prop} {before disk : Disk}
variable {place : List String} {path : Path} {entries : List (String × Tree)}

theorem Tree.kind_entry (tree : Tree) : tree.entry.kind = tree.kind := by
  cases tree <;> rfl

theorem Disk.WellFormed.mem_kinds (h : disk.WellFormed)
    (hentries : disk.tree.get? place = some (.directory entries)) {listed : String × EntryKind} :
    listed ∈ Tree.kinds entries ↔
      (disk.tree.entryAt (place ++ [listed.1])).map Entry.kind = some listed.2 := by
  have hwell : (Tree.directory entries).WellFormed := h.tree.of_get? hentries
  have hget : disk.tree.get? (place ++ [listed.1]) = (Tree.directory entries).child? listed.1 := by
    rw [Tree.get?_append, hentries]
    change ((Tree.directory entries).child? listed.1).bind some = _
    cases (Tree.directory entries).child? listed.1 <;> rfl
  unfold Tree.entryAt
  rw [hget, Option.map_map, Tree.kinds, List.mem_map, Option.map_eq_some_iff]
  constructor
  · rintro ⟨entry, hentry, rfl⟩
    exact ⟨entry.2, hwell.mem_entries_iff.mp hentry, Tree.kind_entry entry.2⟩
  · rintro ⟨tree, hchild, hkind⟩
    refine ⟨(listed.1, tree), hwell.mem_entries_iff.mpr hchild, ?_⟩
    exact Prod.ext rfl ((Tree.kind_entry tree).symm.trans hkind)

theorem Disk.WellFormed.pairwise_kinds (h : disk.WellFormed)
    (hentries : disk.tree.get? place = some (.directory entries)) :
    (Tree.kinds entries).Pairwise fun a b => a.1 < b.1 := by
  cases h.tree.of_get? hentries with
  | directory hsorted _ _ =>
    unfold Tree.kinds
    exact List.pairwise_map.mpr hsorted

theorem Disk.WellFormed.isName_of_listed {name : String} {kind : EntryKind} (h : disk.WellFormed)
    (hlisted : (disk.tree.entryAt (place ++ [name])).map Entry.kind = some kind) : IsName name := by
  obtain ⟨entry, hentry, -⟩ := Option.map_eq_some_iff.mp hlisted
  obtain ⟨tree, htree, -⟩ := Option.map_eq_some_iff.mp hentry
  exact h.tree.isName_last htree

/-- What cannot be a name stands in no directory, so only names can be free. -/
theorem Disk.ChangedOnly.entryAt_eq {name : String} (h : before.ChangedOnly free disk)
    (hwell : before.WellFormed) (place : List String) (hfree : IsName name → ¬ free name) :
    disk.tree.entryAt (place ++ [name]) = before.tree.entryAt (place ++ [name]) := by
  by_cases hname : IsName name
  · exact h.files place name (hfree hname)
  · have hnone : ∀ disk : Disk, disk.WellFormed → disk.tree.entryAt (place ++ [name]) = none := by
      intro disk hdisk
      refine Option.map_eq_none_iff.mpr ?_
      cases hfound : disk.tree.get? (place ++ [name]) with
      | none => rfl
      | some found => exact absurd (hdisk.tree.isName_last hfound) hname
    rw [hnone disk h.wellFormed, hnone before hwell]

/-- **A directory lists what counts as it did before.** -/
theorem Errand.Harmless.filter_listing (h : errand.Harmless free before) (hwell : before.WellFormed)
    (hchanged : before.ChangedOnly free disk) (hopens : before.Opens path place)
    (haccepted : Disk.refused? path = none)
    (hentries : before.tree.get? place = some (.directory entries)) :
    (disk.listing path).filter errand.counts =
      (entries.map fun entry => (path.join entry.1, entry.2.kind)).filter errand.counts := by
  have hopens' := hopens.congr hchanged.same
  obtain ⟨entries', hentries'⟩ := Tree.entryAt_eq_directory.mp hopens'.2
  have hkinds : ∀ list : List (String × Tree),
      (list.map fun entry => (path.join entry.1, entry.2.kind)) =
        (Tree.kinds list).map fun listed => (path.join listed.1, listed.2) := by
    intro list
    rw [Tree.kinds, List.map_map]
    rfl
  have hlisting : disk.listing path =
      (Tree.kinds entries').map fun listed => (path.join listed.1, listed.2) := by
    rw [← hkinds]
    unfold Disk.listing
    rw [hopens'.lookup? haccepted, hentries']
    rfl
  rw [hlisting, hkinds, List.filter_map, List.filter_map]
  refine congrArg _ (Tree.eq_of_mem_iff ((hchanged.wellFormed.pairwise_kinds hentries').filter _)
    ((hwell.pairwise_kinds hentries).filter _) fun listed => ?_)
  rw [List.mem_filter, List.mem_filter, hchanged.wellFormed.mem_kinds hentries',
    hwell.mem_kinds hentries]
  refine and_congr_left fun hcounts => ?_
  obtain ⟨name, kind⟩ := listed
  cases kind with
  | directory =>
    have hkind : ∀ entry : Option Entry,
        entry.map Entry.kind = some .directory ↔ entry = some .directory := by
      intro entry
      rcases entry with _ | _ | _ <;> simp [Entry.kind]
    rw [hkind, hkind]
    exact hchanged.same.directories _
  | file =>
    have hchosen : errand.chosen (path.join name) = true := by simpa [Errand.counts] using hcounts
    rw [hchanged.entryAt_eq hwell place fun hname => h.chosen path name hname hchosen]

/-- Names lead from a directory to the directories below it. -/
theorem Disk.Opens.below {names : List String} (hwell : disk.WellFormed)
    (h : disk.Opens path place)
    (hnames : disk.tree.entryAt (place ++ names) = some .directory) :
    disk.Opens (path.below names) (place ++ names) := by
  induction names generalizing path place with
  | nil =>
    rw [List.append_nil]
    exact h
  | cons name rest ih =>
    have hassoc : place ++ name :: rest = place ++ [name] ++ rest := by simp
    rw [hassoc] at hnames ⊢
    have hdir := Tree.entryAt_of_append hnames
    have hlisted : (disk.tree.entryAt (place ++ [name])).map Entry.kind = some .directory := by
      rw [hdir]
      rfl
    exact ih (h.join (hwell.isName_of_listed hlisted) hdir) hnames

/-- **A file that is read below a directory** stands under its name, and its path leads there. -/
theorem Disk.leads_of_readFile {content : ByteArray} {names : List String} (hwell : disk.WellFormed)
    (h : disk.Opens path place) (hfound : (disk.tree.get? (place ++ names)).isSome)
    (hread : disk.readFile (path.below names) = .ok content) :
    ∃ front last, names = front ++ [last] ∧
      disk.Leads (path.below names) (place ++ front) last := by
  have haccepted := Disk.refused?_of_readFile hread
  cases hlast : names.getLast? with
  | none =>
    -- the directory itself is no file
    rw [List.getLast?_eq_none_iff.mp hlast, Path.below_nil] at haccepted hread
    rw [h.readFile haccepted] at hread
    cases hread
  | some last =>
    obtain ⟨front, rfl⟩ := List.getLast?_eq_some_iff.mp hlast
    obtain ⟨found, hfound⟩ := Option.isSome_iff_exists.mp hfound
    rw [← List.append_assoc] at hfound
    have hholder := h.below hwell (Tree.entryAt_of_below hfound)
    rw [Path.below_concat] at haccepted ⊢
    exact ⟨front, last, rfl, hholder.leads (hwell.tree.isName_last hfound) haccepted⟩

/-- A path that leads somewhere is short enough, and so are those above it. -/
theorem Disk.Leads.opens_above {front holder : List String} {last : String}
    (h : disk.Leads (path.below (front ++ [last])) holder last) :
    Disk.opens (path.below (front ++ [last]).dropLast) := by
  have haccepted := h.accepted
  rw [Path.below_concat] at haccepted
  rw [List.dropLast_concat]
  exact Option.isNone_iff_eq_none.mpr (Disk.refused?_of_join h.isName haccepted)

/-! ### The walk that is taken -/

/-- **What an errand leaves behind**: at entries it can come to, it keeps what it is to keep. -/
theorem Errand.Harmless.play (h : errand.Harmless free before) {paths : List Path}
    (hpaths : ∀ path ∈ paths, before.Visits path ∧ errand.chosen path)
    (hchanged : before.ChangedOnly free disk) :
    before.ChangedOnly free (errand.play paths disk).disk := by
  induction paths generalizing disk with
  | nil => exact hchanged
  | cons path paths ih =>
    obtain ⟨hvisits, hchosen⟩ := hpaths path List.mem_cons_self
    have htreated := h.treat path disk hvisits hchosen hchanged
    rw [Errand.play]
    split
    · exact htreated
    · exact ih (fun other hother => hpaths other (List.mem_cons_of_mem _ hother)) htreated

/-- A path leads to a directory that holds entries, perhaps among others. -/
structure Disk.Shows (disk : Disk) (path : Path) (place : List String)
    (entries : List (String × Tree)) : Prop where
  opens : disk.Opens path place
  entries : ∀ entry ∈ entries, disk.tree.get? (place ++ [entry.1]) = some entry.2

theorem Disk.Shows.of_get? (hwell : disk.WellFormed) (hopens : disk.Opens path place)
    (hentries : disk.tree.get? place = some (.directory entries)) :
    disk.Shows path place entries := by
  refine ⟨hopens, fun entry hentry => ?_⟩
  have hchild := (hwell.tree.of_get? hentries).mem_entries_iff.mp hentry
  rw [Tree.get?_append, hentries]
  change ((Tree.directory entries).child? entry.1).bind some = _
  rw [hchild]
  rfl

section

variable {name : String} {tree : Tree} {rest inner : List (String × Tree)}

theorem Disk.Shows.behind (h : disk.Shows path place ((name, tree) :: rest)) :
    disk.Shows path place rest :=
  ⟨h.opens, fun entry hentry => h.entries entry (List.mem_cons_of_mem _ hentry)⟩

theorem Disk.Shows.isName (hwell : disk.WellFormed)
    (h : disk.Shows path place ((name, tree) :: rest)) : IsName name :=
  hwell.tree.isName_last (h.entries (name, tree) List.mem_cons_self)

theorem Disk.Shows.visits (hwell : disk.WellFormed)
    (h : disk.Shows path place ((name, tree) :: rest)) : disk.Visits (path.join name) :=
  Or.inr ⟨path, place, name, h.opens, h.isName hwell, rfl⟩

theorem Disk.Shows.below (hwell : disk.WellFormed)
    (h : disk.Shows path place ((name, .directory inner) :: rest)) :
    disk.Shows (path.join name) (place ++ [name]) inner := by
  have hget : disk.tree.get? (place ++ [name]) = some (.directory inner) :=
    h.entries (name, .directory inner) List.mem_cons_self
  have hdir := Tree.entryAt_eq_directory.mpr ⟨inner, hget⟩
  exact .of_get? hwell (h.opens.join (h.isName hwell) hdir) hget

end

/-- **A walk visits what it shows.** -/
theorem Disk.Shows.visits_of_mem (hwell : disk.WellFormed) (h : disk.Shows path place entries)
    {shown : Path} (hshown : shown ∈ Tree.walkEntries Disk.opens path entries) :
    disk.Visits shown := by
  induction entries using Tree.entriesInduction generalizing path place with
  | nil => cases hshown
  | cons name tree rest below behind =>
    rw [Tree.walkEntries, List.mem_append, Tree.walk_eq, List.mem_cons] at hshown
    rcases hshown with (rfl | hshown) | hshown
    · exact h.visits hwell
    · split at hshown
      · cases tree with
        | file content => cases hshown
        | directory inner => exact below (h.below hwell) hshown
      · cases hshown
    · exact behind h.behind hshown

theorem Disk.Shows.visits_of_mem_walk (hwell : disk.WellFormed) (h : disk.Shows path place entries)
    {shown : Path} (hshown : shown ∈ (Tree.directory entries).walk Disk.opens path) :
    disk.Visits shown := by
  rw [Tree.walk_eq, List.mem_cons] at hshown
  rcases hshown with rfl | hshown
  · exact Or.inl ⟨place, h.opens⟩
  · split at hshown
    · exact h.visits_of_mem hwell hshown
    · cases hshown

/-- A walker comes through entries of a directory as an errand does that was given their list. -/
def Errand.ComesThrough (errand : Errand ν) (free : String → Prop) (before : Disk)
    (entries : List (String × Tree)) : Prop :=
  ∀ path place disk pending rest said, before.Shows path place entries →
    before.ChangedOnly free disk →
    pending.filter errand.counts =
      (entries.map fun entry => (path.join entry.1, entry.2.kind)).filter errand.counts →
    (⟨disk, pending ++ rest, said⟩ : Walker ν).Comes errand
      (Walker.leaves
        (errand.play ((Tree.walkEntries Disk.opens path entries).filter errand.chosen) disk)
        rest said)

/-- Visiting one entry. -/
theorem Walker.step_cons (errand : Errand ν) (disk : Disk) (path : Path) (kind : EntryKind)
    (rest : List (Path × EntryKind)) (said : List ν) :
    (⟨disk, (path, kind) :: rest, said⟩ : Walker ν).step errand =
      Walker.leaves (errand.play ([path].filter errand.chosen) disk)
        ((if kind = .directory then disk.listing path else []) ++ rest) said := by
  unfold Walker.step
  cases hchosen : errand.chosen path with
  | false => simp [hchosen, Errand.play, Walker.leaves]
  | true =>
    cases hstops : errand.stops (errand.treat path disk).1 <;>
      simp [hchosen, hstops, Errand.play, Walker.leaves]

theorem Disk.listing_of_refused (h : Disk.opens path = false) (disk : Disk) :
    disk.listing path = [] := by
  unfold Disk.opens at h
  obtain ⟨fault, hfault⟩ := Option.isSome_iff_exists.mp (Option.isNone_eq_false_iff.mp h)
  unfold Disk.listing Disk.lookup? Disk.follow
  rw [hfault]

/-- One entry, and what it holds. -/
theorem Errand.Harmless.comes_entry (h : errand.Harmless free before) (hwell : before.WellFormed)
    {tree : Tree} (hbelow : errand.ComesThrough free before tree.entries)
    (hshows : ∀ inner, tree = .directory inner →
      before.Shows path place inner ∧ before.tree.get? place = some tree)
    (hvisits : before.Visits path) (hchanged : before.ChangedOnly free disk)
    (rest : List (Path × EntryKind)) (said : List ν) :
    (⟨disk, (path, tree.kind) :: rest, said⟩ : Walker ν).Comes errand
      (Walker.leaves (errand.play ((tree.walk Disk.opens path).filter errand.chosen) disk)
        rest said) := by
  have hsplit : (tree.walk Disk.opens path).filter errand.chosen =
      [path].filter errand.chosen ++
        (if Disk.opens path then Tree.walkEntries Disk.opens path tree.entries
          else []).filter errand.chosen := by
    rw [Tree.walk_eq, ← List.filter_append]
    rfl
  rw [hsplit]
  have hstep : (⟨disk, (path, tree.kind) :: rest, said⟩ : Walker ν).Comes errand
      (Walker.leaves (errand.play ([path].filter errand.chosen) disk)
        ((if tree.kind = .directory then disk.listing path else []) ++ rest) said) := by
    refine Walker.Comes.step ?_
    rw [Walker.step_cons]
    exact Walker.Comes.refl _
  have htreated : before.ChangedOnly free
      (errand.play ([path].filter errand.chosen) disk).disk := by
    refine h.play (fun other hother => ?_) hchanged
    obtain ⟨hmem, hchosen⟩ := List.mem_filter.mp hother
    obtain rfl := List.mem_singleton.mp hmem
    exact ⟨hvisits, hchosen⟩
  refine Walker.comes_append hstep ?_
  cases tree with
  | file content =>
    simp only [Tree.kind, Tree.entries, Tree.walkEntries, reduceCtorEq, if_false, ite_self]
    exact Walker.comes_nil _ _ _
  | directory inner =>
    obtain ⟨hinner, hget⟩ := hshows inner rfl
    simp only [Tree.kind, Tree.entries, if_true]
    cases hopens : Disk.opens path with
    | false =>
      rw [Disk.listing_of_refused hopens]
      exact Walker.comes_nil _ _ _
    | true =>
      refine hbelow path place _ _ _ _ hinner htreated ?_
      exact h.filter_listing hwell hchanged hinner.opens (Option.isNone_iff_eq_none.mp hopens) hget

theorem Errand.Harmless.comes_entries (h : errand.Harmless free before) (hwell : before.WellFormed)
    (entries : List (String × Tree)) : errand.ComesThrough free before entries := by
  induction entries using Tree.entriesInduction with
  | nil =>
    intro path place disk pending rest said _ _ hpending
    refine (Walker.comes_of_filter_nil ?_).trans (Walker.comes_nil disk rest said)
    exact hpending
  | cons name tree entries below behind =>
    intro path place disk pending rest said hshows hchanged hpending
    rw [List.map_cons] at hpending
    rw [Tree.walkEntries, List.filter_append]
    cases hcounts : errand.counts (path.join name, tree.kind) with
    | false =>
      rw [List.filter_cons_of_neg (by simp [hcounts])] at hpending
      obtain ⟨hkind, hchosen⟩ := Bool.or_eq_false_iff.mp hcounts
      -- what does not count is a file that is not chosen, and both walks pass over it
      have hnone : (tree.walk Disk.opens (path.join name)).filter errand.chosen = [] := by
        cases tree with
        | file content => simp [Tree.walk, hchosen]
        | directory inner => cases hkind
      rw [hnone, List.nil_append]
      exact behind path place disk pending rest said hshows.behind hchanged hpending
    | true =>
      rw [List.filter_cons_of_pos hcounts] at hpending
      obtain ⟨others, hcomes, hothers⟩ := Walker.comes_of_filter_cons hpending disk rest said
      have hinner : ∀ inner, tree = .directory inner →
          before.Shows (path.join name) (place ++ [name]) inner ∧
            before.tree.get? (place ++ [name]) = some tree := by
        rintro inner rfl
        exact ⟨hshows.below hwell, hshows.entries _ List.mem_cons_self⟩
      have hentry := h.comes_entry hwell below hinner (hshows.visits hwell) hchanged
        (others ++ rest) said
      refine hcomes.trans (Walker.comes_append hentry ?_)
      refine behind path place _ others rest _ hshows.behind ?_ hothers
      refine h.play (fun other hother => ?_) hchanged
      obtain ⟨hmem, hchosen⟩ := List.mem_filter.mp hother
      refine ⟨hshows.visits_of_mem hwell ?_, hchosen⟩
      rw [Tree.walkEntries]
      exact List.mem_append_left _ hmem

/-- **A walk while files are written** goes as if all its entries had been listed at the start. -/
theorem Errand.Harmless.comes_walk (h : errand.Harmless free before) (hwell : before.WellFormed)
    (hopens : before.Opens path place)
    (hentries : before.tree.get? place = some (.directory entries)) :
    (⟨before, [(path, .directory)], []⟩ : Walker ν).Comes errand
      (Walker.leaves
        (errand.play (((Tree.directory entries).walk Disk.opens path).filter errand.chosen) before)
        [] []) := by
  have hinner : ∀ inner, Tree.directory entries = .directory inner →
      before.Shows path place inner ∧ before.tree.get? place = some (.directory entries) := by
    intro inner heq
    obtain rfl := Tree.directory.inj heq
    exact ⟨.of_get? hwell hopens hentries, hentries⟩
  have hbelow : errand.ComesThrough free before (Tree.directory entries).entries :=
    h.comes_entries hwell entries
  exact h.comes_entry hwell hbelow hinner (Or.inl ⟨place, hopens⟩) (.refl hwell) [] []

end

end NetScribe.Files
