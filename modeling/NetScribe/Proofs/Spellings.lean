import NetScribe.Path.Basic

/-!
# The order of references, and their spellings

References are compared by keys, lists of numbers made from the letters of their components. This
file says what that order is without keys: `Path.Before` compares component by component, root
before `.` before `..` before names, and names by their bytes. The two are one order
(`Path.before_iff`) because a letter with the smaller number has the smaller bytes, whatever follows
them (`utf8EncodeChar_lt`): bytes are digits, and the first of them tells how many there are.

It also says which changes of the text leave the components alone. Behind a slash the rest of a
reference counts only for its pieces (`componentsOf_congr_behind`), so a second slash, a `.` between
slashes and a slash at the end are not seen.
-/

namespace NetScribe.Path

/-! ## Bytes and letters -/

/-- The bytes of a number in `more + 1` digits of six bits, the first of them raised by `base`. -/
def digitBytes (base : Nat) : Nat → Nat → List UInt8
  | 0, v => [UInt8.ofNat (v + base)]
  | more + 1, v => digitBytes base more (v / 64) ++ [UInt8.ofNat (v % 64 + 0x80)]

/-- The first of these digits. -/
def leadDigit : Nat → Nat → Nat
  | 0, v => v
  | more + 1, v => leadDigit more (v / 64)

/-- How many bytes follow the first byte of a letter. -/
def followers (v : Nat) : Nat :=
  if v < 0x80 then 0 else if v < 0x800 then 1 else if v < 0x10000 then 2 else 3

/-- Where the first bytes begin that are followed by so many others. -/
def leadBase : Nat → Nat
  | 0 => 0
  | 1 => 0xc0
  | 2 => 0xe0
  | 3 => 0xf0
  | _ => 0x100

theorem byte_lt {a b : Nat} (h : a < b) (hb : b < 0x100) : UInt8.ofNat a < UInt8.ofNat b := by
  rw [UInt8.lt_iff_toNat_lt, UInt8.toNat_ofNat_of_lt' (Nat.lt_trans h hb),
    UInt8.toNat_ofNat_of_lt' hb]
  exact h

theorem digitBytes_eq_cons (base more v : Nat) :
    ∃ rest, digitBytes base more v = UInt8.ofNat (leadDigit more v + base) :: rest := by
  induction more generalizing v with
  | zero => exact ⟨[], rfl⟩
  | succ more ih =>
    obtain ⟨rest, hrest⟩ := ih (v / 64)
    exact ⟨rest ++ [UInt8.ofNat (v % 64 + 0x80)], by rw [digitBytes, hrest]; rfl⟩

/-- **Digits are compared from the first on**, whatever follows them. -/
theorem digitBytes_lt {base more v w : Nat} (h : v < w) (hlead : leadDigit more w + base < 0x100)
    (s t : List UInt8) : digitBytes base more v ++ s < digitBytes base more w ++ t := by
  induction more generalizing v w s t with
  | zero => exact List.Lex.rel (byte_lt (Nat.add_lt_add_right h base) hlead)
  | succ more ih =>
    rw [digitBytes, digitBytes, List.append_assoc, List.append_assoc]
    rcases Nat.lt_or_ge (v / 64) (w / 64) with hfront | hfront
    · exact ih hfront hlead _ _
    · -- all digits but the last agree
      have hsame : v / 64 = w / 64 := by omega
      rw [hsame]
      exact List.append_left_lt (List.Lex.rel (byte_lt (by omega) (by omega)))

theorem followers_mono {v w : Nat} (h : v < w) : followers v ≤ followers w := by
  unfold followers
  grind

theorem leadBase_le (n : Nat) : leadBase n ≤ 0x100 := by
  unfold leadBase
  split <;> omega

theorem leadBase_mono {m n : Nat} (h : m < n) : leadBase (m + 1) ≤ leadBase n := by
  unfold leadBase
  grind

/-- A letter is written in digits, and its first byte is in the range that announces how many
follow. -/
theorem utf8EncodeChar_eq (c : Char) :
    String.utf8EncodeChar c =
      digitBytes (leadBase (followers c.toNat)) (followers c.toNat) c.toNat ∧
    leadDigit (followers c.toNat) c.toNat + leadBase (followers c.toNat) <
      leadBase (followers c.toNat + 1) := by
  have hc : c.toNat < 0x110000 := by
    have hvalid := c.valid
    simp only [UInt32.isValidChar, Nat.isValidChar] at hvalid
    change c.val.toNat < _
    omega
  have hval : c.val.toNat = c.toNat := rfl
  simp only [String.utf8EncodeChar, hval, followers]
  generalize c.toNat = v at hc
  by_cases hone : v < 0x80
  · rw [if_pos (by omega), if_pos hone]
    exact ⟨rfl, by simp only [leadDigit, leadBase]; omega⟩
  rw [if_neg (by omega), if_neg hone]
  by_cases htwo : v < 0x800
  · rw [if_pos (by omega), if_pos htwo, Nat.mod_eq_of_lt (by omega : v / 64 < 32)]
    exact ⟨rfl, by simp only [leadDigit, leadBase]; omega⟩
  rw [if_neg (by omega), if_neg htwo]
  by_cases hthree : v < 0x10000
  · rw [if_pos (by omega), if_pos hthree, Nat.mod_eq_of_lt (by omega : v / 4096 < 16)]
    refine ⟨?_, by simp only [leadDigit, leadBase]; omega⟩
    simp only [digitBytes, leadBase, List.cons_append, List.nil_append, Nat.div_div_eq_div_mul]
  · rw [if_neg (by omega), if_neg hthree, Nat.mod_eq_of_lt (by omega : v / 262144 < 8)]
    refine ⟨?_, by simp only [leadDigit, leadBase]; omega⟩
    simp only [digitBytes, leadBase, List.cons_append, List.nil_append, Nat.div_div_eq_div_mul]

/-- **A letter with the smaller number has the smaller bytes**, whatever follows them. -/
theorem utf8EncodeChar_lt {c d : Char} (h : c.toNat < d.toNat) (s t : List UInt8) :
    String.utf8EncodeChar c ++ s < String.utf8EncodeChar d ++ t := by
  obtain ⟨hc, hcLead⟩ := utf8EncodeChar_eq c
  obtain ⟨hd, hdLead⟩ := utf8EncodeChar_eq d
  have hbound := leadBase_le (followers d.toNat + 1)
  rw [hc, hd]
  rcases Nat.eq_or_lt_of_le (followers_mono h) with hsame | hfewer
  · rw [hsame] at hcLead ⊢
    exact digitBytes_lt h (by omega) s t
  · -- the letter with more bytes has a first byte out of reach of the other
    have hbase := leadBase_mono hfewer
    obtain ⟨crest, hcrest⟩ :=
      digitBytes_eq_cons (leadBase (followers c.toNat)) (followers c.toNat) c.toNat
    obtain ⟨drest, hdrest⟩ :=
      digitBytes_eq_cons (leadBase (followers d.toNat)) (followers d.toNat) d.toNat
    rw [hcrest, hdrest]
    exact List.Lex.rel (byte_lt (by omega) (by omega))

/-- The bytes of a name. -/
def bytesOf (letters : List Char) : List UInt8 :=
  letters.flatMap String.utf8EncodeChar

theorem bytesOf_lt {s t : List Char} (h : s.map Char.toNat < t.map Char.toNat) :
    bytesOf s < bytesOf t := by
  induction s generalizing t with
  | nil =>
    cases t with
    | nil => exact absurd h (List.lt_irrefl _)
    | cons d t =>
      obtain ⟨first, rest, hbytes⟩ :=
        List.exists_cons_of_ne_nil (String.utf8EncodeChar_ne_nil (c := d))
      change [] < String.utf8EncodeChar d ++ bytesOf t
      rw [hbytes]
      exact List.Lex.nil
  | cons c s ih =>
    cases t with
    | nil => exact absurd h (List.not_lt_nil _)
    | cons d t =>
      change String.utf8EncodeChar c ++ bytesOf s < String.utf8EncodeChar d ++ bytesOf t
      rcases List.cons_lt_cons_iff.mp h with hfirst | ⟨hfirst, hrest⟩
      · exact utf8EncodeChar_lt hfirst _ _
      · rw [Char.toNat_inj.mp hfirst]
        exact List.append_left_lt (ih hrest)

/-- **Names are in the order of their bytes when they are in the order of their letters.** -/
theorem bytesOf_lt_iff {s t : List Char} :
    bytesOf s < bytesOf t ↔ s.map Char.toNat < t.map Char.toNat := by
  refine ⟨fun h => Decidable.byContradiction fun hnot => ?_, bytesOf_lt⟩
  rcases List.le_iff_lt_or_eq.mp (List.not_lt.mp hnot) with hback | hsame
  · exact List.lt_asymm h (bytesOf_lt hback)
  · rw [List.map_inj_right fun _ _ => Char.toNat_inj.mp] at hsame
    rw [hsame] at h
    exact List.lt_irrefl _ h

/-! ## The order -/

namespace Component

/-- The place of a component's kind: root, `.`, `..`, names. -/
def rank : Component → Nat
  | .root => 0
  | .here => 1
  | .up => 2
  | .name _ => 3

/-- The order of components: by kind, and names byte by byte. -/
inductive Before : Component → Component → Prop
  | kind {a b : Component} : a.rank < b.rank → Before a b
  | name {s t : List Char} : bytesOf s < bytesOf t → Before (.name s) (.name t)

theorem before_iff {a b : Component} : a.Before b ↔ a.key < b.key := by
  constructor
  · intro h
    cases h with
    | kind hrank =>
      have hkey : ∀ c : Component, ∃ rest, c.key = c.rank :: rest := by
        intro c
        cases c <;> exact ⟨_, rfl⟩
      obtain ⟨arest, harest⟩ := hkey a
      obtain ⟨brest, hbrest⟩ := hkey b
      rw [harest, hbrest]
      exact List.Lex.rel hrank
    | name hbytes => exact List.Lex.cons (bytesOf_lt_iff.mp hbytes)
  · intro h
    by_cases hrank : a.rank < b.rank
    · exact .kind hrank
    · cases a <;> cases b <;> simp_all [rank, key, List.cons_lt_cons_iff]
      exact .name (bytesOf_lt_iff.mpr h)

end Component

/-- The order of references: component by component, a shorter one before its extensions. -/
def Before (p q : Path) : Prop :=
  List.Lex Component.Before p.components q.components

/-- **The order of keys is the order of components.** -/
theorem before_iff {p q : Path} : p.Before q ↔ p.key < q.key := by
  unfold Before key
  generalize p.components = a
  generalize q.components = b
  induction a generalizing b with
  | nil => cases b <;> simp
  | cons x a ih =>
    cases b with
    | nil => simp
    | cons y b =>
      rw [List.cons_lex_cons_iff, List.map_cons, List.map_cons, List.cons_lt_cons_iff, ih,
        Component.before_iff]
      constructor
      · rintro (h | ⟨rfl, h⟩)
        · exact Or.inl h
        · exact Or.inr ⟨rfl, h⟩
      · rintro (h | ⟨hxy, h⟩)
        · exact Or.inl h
        · exact Or.inr ⟨Component.key_inj hxy, h⟩

/-! ## Spellings of one reference -/

theorem ofPieces_append (first second : List (List Char)) :
    ofPieces (first ++ second) = ofPieces first ++ ofPieces second :=
  List.filterMap_append

/-- The components of the pieces of a reference that does not start with a slash. -/
def ofRelative : List (List Char) → List Component
  | ['.'] :: rest => .here :: ofPieces rest
  | pieces => ofPieces pieces

theorem componentsOf_relative {letters : List Char} (h : letters.head? ≠ some '/') :
    componentsOf letters = ofRelative (letters.splitOn '/') := by
  unfold componentsOf
  split
  · exact absurd rfl h
  · rfl

/-- Only the first piece of a reference can be a leading `.`. -/
theorem ofRelative_append {pieces : List (List Char)} (h : pieces ≠ [])
    (more : List (List Char)) :
    ofRelative (pieces ++ more) = ofRelative pieces ++ ofPieces more := by
  obtain ⟨first, rest, rfl⟩ := List.exists_cons_of_ne_nil h
  by_cases hdot : first = ['.']
  · rw [hdot]
    change Component.here :: ofPieces (rest ++ more) = _
    rw [ofPieces_append]
    rfl
  · have hplain : ∀ others, ofRelative (first :: others) = ofPieces (first :: others) := by
      intro others
      unfold ofRelative
      split
      next heq => exact absurd (List.cons.inj heq).1 hdot
      next => rfl
    rw [List.cons_append, hplain, hplain, ← List.cons_append, ofPieces_append]

/-- **Behind a slash there are pieces and nothing else.** -/
theorem componentsOf_append_slash {front : List Char} (h : front ≠ []) (back : List Char) :
    componentsOf (front ++ '/' :: back) = componentsOf front ++ ofPieces (back.splitOn '/') := by
  obtain ⟨first, rest, rfl⟩ := List.exists_cons_of_ne_nil h
  by_cases hslash : first = '/'
  · rw [hslash]
    change Component.root :: ofPieces ((rest ++ '/' :: back).splitOn '/') = _
    rw [List.splitOn_append_cons_self, ofPieces_append]
    rfl
  · have hhead : ∀ more, (first :: more).head? ≠ some '/' := by simpa using hslash
    rw [List.cons_append, componentsOf_relative (hhead _), componentsOf_relative (hhead _),
      ← List.cons_append, List.splitOn_append_cons_self,
      ofRelative_append (List.splitOn_ne_nil _ _)]

theorem componentsOf_congr_behind (front : List Char) {back back' : List Char}
    (h : ofPieces (back.splitOn '/') = ofPieces (back'.splitOn '/')) :
    componentsOf (front ++ '/' :: back) = componentsOf (front ++ '/' :: back') := by
  by_cases hfront : front = []
  · rw [hfront]
    change Component.root :: _ = Component.root :: _
    rw [h]
  · rw [componentsOf_append_slash hfront, componentsOf_append_slash hfront, h]

/-- A slash behind a slash is not seen. -/
theorem components_slashes (front back : String) :
    (⟨front ++ "//" ++ back⟩ : Path).components = (⟨front ++ "/" ++ back⟩ : Path).components := by
  simp only [components, String.toList_append, List.append_assoc]
  change componentsOf (front.toList ++ '/' :: ('/' :: back.toList)) = _
  apply componentsOf_congr_behind
  rw [← List.nil_append ('/' :: back.toList), List.splitOn_append_cons_self, ofPieces_append]
  rfl

/-- Nor is a `.` between slashes. -/
theorem components_inner_here (front back : String) :
    (⟨front ++ "/./" ++ back⟩ : Path).components = (⟨front ++ "/" ++ back⟩ : Path).components := by
  simp only [components, String.toList_append, List.append_assoc]
  change componentsOf (front.toList ++ '/' :: (['.'] ++ '/' :: back.toList)) = _
  apply componentsOf_congr_behind
  rw [List.splitOn_append_cons_self, ofPieces_append]
  rfl

/-- Nor is a slash at the end, unless it is all there is. -/
theorem components_last_slash {front : String} (h : front ≠ "") :
    (⟨front ++ "/"⟩ : Path).components = (⟨front⟩ : Path).components := by
  simp only [components, String.toList_append]
  refine (componentsOf_append_slash (mt String.toList_eq_nil_iff.mp h) []).trans ?_
  exact List.append_nil _

end NetScribe.Path
