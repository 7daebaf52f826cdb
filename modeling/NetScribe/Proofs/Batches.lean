import Mathlib.Algebra.Order.Floor.Div
import NetScribe.Proofs.Decimals

/-!
# Numbers on lines

The numbers of an array stand on lines of a few, the rows of a table on one line each, and both are
the same list. Lines are made from groups: each group starts where the one before it ends
(`getElem?_groups`), and each line is its group with a comma behind it unless it is the last
(`getElem?_commaLines`). `Batched` is what follows for texts that hold no comma themselves.

A comma can also be set by the index of its number, which the line and the place on the line give.
In words of sixty-four bits such an index might wrap; it is below the number of numbers
(`index_lt`), so it does not, and the lines are the same (`indexedLines_eq`).
-/

namespace NetScribe.Java

/-! ## Groups -/

section Groups

variable {α β : Type} {size : Nat} {list : List α}

/-- The groups of a list are the list. -/
theorem flatten_groups (size : Nat) (list : List α) : (groups size list).flatten = list := by
  induction list using groups.induct size with
  | case1 => rw [groups, List.flatten_nil]
  | case2 first rest ih =>
    rw [groups, List.flatten_cons, ih, List.cons_append, List.take_append_drop]

/-- **Each group starts where the one before it ends.** -/
theorem getElem?_groups (size : Nat) (list : List α) (i : Nat) :
    (groups size list)[i]? =
      if i * (size + 1) < list.length then
        some ((list.drop (i * (size + 1))).take (size + 1))
      else none := by
  induction list using groups.induct size generalizing i with
  | case1 => simp [groups]
  | case2 first rest ih =>
    rw [groups]
    cases i with
    | zero => simp
    | succ i =>
      have hstart : (i + 1) * (size + 1) = i * (size + 1) + size + 1 := by
        rw [Nat.add_one_mul]
        omega
      have hwithin : i * (size + 1) < rest.length - size ↔
          i * (size + 1) + size + 1 < rest.length + 1 := by omega
      rw [List.getElem?_cons_succ, ih, List.length_drop, List.length_cons, List.drop_drop, hstart,
        List.drop_succ_cons, Nat.add_comm size (i * (size + 1))]
      exact if_congr hwithin rfl rfl

theorem lt_length_groups (size : Nat) (list : List α) (i : Nat) :
    i < (groups size list).length ↔ i * (size + 1) < list.length := by
  rw [← Nat.not_le, ← List.getElem?_eq_none_iff, getElem?_groups]
  split
  · next hin => simp [hin]
  · next hout => simp [hout]

theorem length_groups (size : Nat) (list : List α) :
    (groups size list).length = (list.length + size) / (size + 1) := by
  induction list using groups.induct size with
  | case1 => simp [groups, Nat.div_eq_of_lt (Nat.lt_succ_self size)]
  | case2 first rest ih =>
    rw [groups, List.length_cons, ih, List.length_drop, List.length_cons]
    by_cases hshort : rest.length ≤ size
    · have hleft : rest.length - size + size = size := by omega
      have hall : rest.length + 1 + size = rest.length + 1 * (size + 1) := by omega
      rw [hleft, Nat.div_eq_of_lt (Nat.lt_succ_self size), hall,
        Nat.add_mul_div_right _ _ (by omega), Nat.div_eq_of_lt (by omega)]
    · have hall : rest.length + 1 + size = rest.length - size + size + 1 * (size + 1) := by omega
      rw [hall, Nat.add_mul_div_right _ _ (by omega)]

theorem map_groups (f : α → β) (size : Nat) (list : List α) :
    groups size (list.map f) = (groups size list).map (List.map f) := by
  induction list using groups.induct size with
  | case1 => simp [groups]
  | case2 first rest ih =>
    rw [List.map_cons, groups, groups, ← List.map_drop, ih, List.map_cons, List.map_cons,
      List.map_take]

end Groups

/-! ## Lines -/

/-- A line has its texts and, unless it is the last, a comma behind them. -/
theorem getElem?_commaLines (lines : List (List String)) (i : Nat) :
    (commaLines lines)[i]? =
      lines[i]?.map fun line =>
        ",".intercalate line ++ if i + 1 < lines.length then "," else "" := by
  induction lines using commaLines.induct generalizing i with
  | case1 => simp [commaLines]
  | case2 last =>
    cases i with
    | zero => simp [commaLines]
    | succ i => simp [commaLines]
  | case3 line next rest ih =>
    cases i with
    | zero => simp [commaLines]
    | succ i =>
      rw [commaLines, List.getElem?_cons_succ, ih]
      simp

theorem length_commaLines (lines : List (List String)) :
    (commaLines lines).length = lines.length := by
  induction lines using commaLines.induct with
  | case1 => rfl
  | case2 last => rfl
  | case3 line next rest ih => simp only [commaLines, List.length_cons, ih]

theorem intercalate_append {sep : String} {first second : List String} (hfirst : first ≠ [])
    (hsecond : second ≠ []) :
    sep.intercalate (first ++ second) = sep.intercalate first ++ sep ++ sep.intercalate second := by
  induction first with
  | nil => exact absurd rfl hfirst
  | cons text rest ih =>
    cases rest with
    | nil =>
      obtain ⟨next, after, rfl⟩ := List.exists_cons_of_ne_nil hsecond
      simp
    | cons next after =>
      rw [List.cons_append, List.cons_append, String.intercalate_cons_cons,
        String.intercalate_cons_cons, ← List.cons_append, ih (List.cons_ne_nil _ _)]
      simp [String.append_assoc]

/-- **The lines one behind the other are the list without line breaks.** -/
theorem join_commaLines {lines : List (List String)} (h : ∀ line ∈ lines, line ≠ []) :
    String.join (commaLines lines) = ",".intercalate lines.flatten := by
  induction lines using commaLines.induct with
  | case1 => simp [commaLines]
  | case2 last => simp [commaLines]
  | case3 line next rest ih =>
    obtain ⟨hline, hrest⟩ := List.forall_mem_cons.mp h
    have hnext : (next :: rest).flatten ≠ [] := by
      intro hnil
      exact (List.forall_mem_cons.mp hrest).1 (List.append_eq_nil_iff.mp hnil).1
    rw [commaLines, String.join_cons, ih hrest]
    exact (intercalate_append hline hnext).symm

theorem ne_nil_of_mem_groups {α : Type} {size : Nat} {list group : List α}
    (h : group ∈ groups size list) : group ≠ [] := by
  induction list using groups.induct size with
  | case1 => simp [groups] at h
  | case2 first rest ih =>
    rw [groups] at h
    rcases List.mem_cons.mp h with rfl | hlater
    · exact List.cons_ne_nil _ _
    · exact ih hlater

/-! ## Batches -/

/-- Texts on lines of `b` of them, with a comma behind each but the last of all. -/
structure Batched (b : Nat) (texts lines : List String) : Prop where
  /-- There are as many lines as are needed. -/
  count : lines.length = texts.length ⌈/⌉ b
  /-- The lines one behind the other are the list without line breaks. -/
  joined : String.join lines = ",".intercalate texts
  /-- Every line but the last has `b` texts and ends with a comma. -/
  full : ∀ ⦃i : Nat⦄, i + 1 < lines.length → ∃ group line,
    group = (texts.drop (i * b)).take b ∧ group.length = b ∧ lines[i]? = some line ∧
      line = ",".intercalate group ++ ","
  /-- The last line has between one and `b` texts and does not end with a comma. -/
  rest : ∀ ⦃i : Nat⦄, i + 1 = lines.length → ∃ group line,
    group = (texts.drop (i * b)).take b ∧ 1 ≤ group.length ∧ group.length ≤ b ∧
      lines[i]? = some line ∧ line = ",".intercalate group ∧ line.toList.getLast? ≠ some ','
  /-- Cut at its commas, the list gives the texts back. -/
  cut : texts ≠ [] → (String.join lines).toList.splitOn ',' = texts.map String.toList

/-- A text that is no comma and has none. -/
def Uncut (text : String) : Prop := text ≠ "" ∧ ',' ∉ text.toList

theorem getLast?_intercalate_ne {texts : List String} (h : ∀ text ∈ texts, Uncut text) :
    (",".intercalate texts).toList.getLast? ≠ some ',' := by
  induction texts with
  | nil => simp
  | cons text rest ih =>
    obtain ⟨⟨hne, hcomma⟩, hrest⟩ := List.forall_mem_cons.mp h
    cases rest with
    | nil =>
      rw [String.intercalate_singleton]
      exact fun hlast => hcomma (List.mem_of_getLast? hlast)
    | cons next rest =>
      have hback := ih hrest
      have hletters : (",".intercalate (next :: rest)).toList ≠ [] := by
        have hnext := (List.forall_mem_cons.mp hrest).1.1
        cases rest <;> simp [hnext]
      rw [String.intercalate_cons_cons, String.toList_append,
        List.getLast?_append_of_ne_nil _ hletters]
      exact hback

/-- **Lines of groups of texts are batches of them.** -/
theorem batched_commaLines (size : Nat) {texts : List String} (h : ∀ text ∈ texts, Uncut text) :
    Batched (size + 1) texts (commaLines (groups size texts)) := by
  have hjoined : String.join (commaLines (groups size texts)) = ",".intercalate texts := by
    rw [join_commaLines fun line hline => ne_nil_of_mem_groups hline, flatten_groups]
  have hlines : ∀ {i}, i < (groups size texts).length → i * (size + 1) < texts.length :=
    fun {i} => (lt_length_groups size texts i).mp
  have hline : ∀ {i}, i * (size + 1) < texts.length →
      (commaLines (groups size texts))[i]? =
        some (",".intercalate ((texts.drop (i * (size + 1))).take (size + 1)) ++
          if i + 1 < (groups size texts).length then "," else "") := by
    intro i hi
    rw [getElem?_commaLines, getElem?_groups, if_pos hi, Option.map_some]
  refine ⟨?_, hjoined, fun i hi => ?_, fun i hi => ?_, fun hne => ?_⟩
  · rw [length_commaLines, length_groups, Nat.ceilDiv_eq_add_pred_div]
    rfl
  · rw [length_commaLines] at hi
    have hstart := hlines (Nat.lt_of_succ_lt hi)
    have hnext := hlines hi
    refine ⟨_, _, rfl, ?_, hline hstart, by rw [if_pos hi]⟩
    rw [Nat.add_one_mul] at hnext
    rw [List.length_take, List.length_drop]
    omega
  · rw [length_commaLines] at hi
    have hstart := hlines (Nat.lt_of_lt_of_eq (Nat.lt_succ_self i) hi)
    have hlast : ¬ i + 1 < (groups size texts).length := by omega
    refine ⟨_, _, rfl, ?_, ?_, hline hstart, by rw [if_neg hlast, String.append_empty], ?_⟩
    · rw [List.length_take, List.length_drop]
      omega
    · rw [List.length_take]
      omega
    · rw [if_neg hlast, String.append_empty]
      exact getLast?_intercalate_ne fun text htext =>
        h text (List.mem_of_mem_drop (List.mem_of_mem_take htext))
  · have hcommas : ∀ letters ∈ texts.map String.toList, ',' ∉ letters := by
      intro letters hletters
      obtain ⟨text, htext, rfl⟩ := List.mem_map.mp hletters
      exact (h text htext).2
    rw [hjoined, String.toList_intercalate]
    exact List.splitOn_intercalate ',' hcommas (by simpa using hne)

/-! ## Commas by index -/

/-- What stands behind a number: its line and its place on the line give its index among all
numbers, in words of sixty-four bits. -/
def separator (batch last line place : UInt64) : String :=
  if line * batch + place < last then "," else ""

/-- The lines of an array, with each comma set by the index of its number. -/
def indexedLines (precision batch : Nat) (values : List Binary64) : List String :=
  let b := max batch 1
  let last := values.length - 1
  (groups (b - 1) values).mapIdx fun line group =>
    String.join (group.mapIdx fun place x =>
      numberText precision x ++ separator (.ofNat b) (.ofNat last) (.ofNat line) (.ofNat place))

/-- An index below `2 ^ 64` is the same in words. -/
theorem toNat_index {b line place : Nat} (hb : 0 < b) (h : line * b + place < 2 ^ 64)
    (hword : b < 2 ^ 64) :
    (UInt64.ofNat line * UInt64.ofNat b + UInt64.ofNat place).toNat = line * b + place := by
  have hline : line ≤ line * b := Nat.le_mul_of_pos_right line hb
  rw [UInt64.toNat_add, UInt64.toNat_mul, UInt64.toNat_ofNat_of_lt' (by simp [UInt64.size]; omega),
    UInt64.toNat_ofNat_of_lt' (by simp [UInt64.size]; omega),
    UInt64.toNat_ofNat_of_lt' (by simp [UInt64.size]; omega)]
  omega

/-- Texts with a comma behind each that is not the last of `n`, where `start` stand in front. -/
theorem join_mapIdx_commas {texts : List String} (hne : texts ≠ []) (start : Nat) {n : Nat}
    (h : start + texts.length ≤ n) :
    String.join (texts.mapIdx fun place text =>
        text ++ if start + place + 1 < n then "," else "") =
      ",".intercalate texts ++ if start + texts.length < n then "," else "" := by
  induction texts generalizing start with
  | nil => exact absurd rfl hne
  | cons text rest ih =>
    cases rest with
    | nil => simp
    | cons next rest =>
      have hlength : start + 1 + (next :: rest).length = start + (text :: next :: rest).length := by
        simp only [List.length_cons]
        omega
      have hrest := ih (List.cons_ne_nil _ _) (start + 1) (hlength ▸ h)
      have hmore : start + 0 + 1 < n := by
        simp only [List.length_cons] at h
        omega
      have hshift : (fun place text => text ++ if start + (place + 1) + 1 < n then "," else "") =
          fun place (text : String) => text ++ if start + 1 + place + 1 < n then "," else "" := by
        funext place text
        rw [Nat.add_comm place 1, ← Nat.add_assoc]
      rw [List.mapIdx_cons, String.join_cons, if_pos hmore, hshift, hrest,
        String.intercalate_cons_cons, hlength]
      simp only [String.append_assoc]

/-- **No index is ever too large**: it is below the number of numbers. -/
theorem index_lt {α : Type} {size line place : Nat} {list group : List α}
    (h : (groups size list)[line]? = some group) (hplace : place < group.length) :
    line * (size + 1) + place < list.length := by
  rw [getElem?_groups] at h
  split at h
  · cases h
    rw [List.length_take, List.length_drop] at hplace
    omega
  · cases h

/-- In words or not, a comma stands behind every number but the last. -/
theorem separator_eq {b line place n : Nat} (hb : 0 < b) (hword : b < 2 ^ 64) (hn : n < 2 ^ 64)
    (h : line * b + place < n) :
    separator (.ofNat b) (.ofNat (n - 1)) (.ofNat line) (.ofNat place) =
      if line * b + place + 1 < n then "," else "" := by
  have hlast : (UInt64.ofNat (n - 1)).toNat = n - 1 :=
    UInt64.toNat_ofNat_of_lt' (by simp [UInt64.size]; omega)
  have hbelow : line * b + place < n - 1 ↔ line * b + place + 1 < n := by omega
  simp only [separator, UInt64.lt_iff_toNat_lt, toNat_index hb (h.trans hn) hword, hlast, hbelow]

/-- **Commas set by index are those of the lines.** -/
theorem indexedLines_eq {precision batch : Nat} {values : List Binary64} (hbatch : batch < 2 ^ 64)
    (hlength : values.length < 2 ^ 64) :
    indexedLines precision batch values = batchLines precision batch values := by
  have hsize : max batch 1 = batch - 1 + 1 := by omega
  refine List.ext_getElem? fun line => ?_
  rw [indexedLines, batchLines, List.getElem?_mapIdx, getElem?_commaLines, map_groups,
    List.getElem?_map, List.length_map]
  simp only [hsize, Nat.add_sub_cancel]
  cases hgroup : (groups (batch - 1) values)[line]? with
  | none => rfl
  | some group =>
    have hne : group ≠ [] := ne_nil_of_mem_groups (List.mem_of_getElem? hgroup)
    have hcommas : (group.mapIdx fun place x => numberText precision x ++
        separator (.ofNat (batch - 1 + 1)) (.ofNat (values.length - 1)) (.ofNat line)
          (.ofNat place)) =
        (group.map (numberText precision)).mapIdx fun place text =>
          text ++ if line * (batch - 1 + 1) + place + 1 < values.length then "," else "" := by
      refine List.ext_getElem? fun place => ?_
      rw [List.getElem?_mapIdx, List.getElem?_mapIdx, List.getElem?_map]
      cases hx : group[place]? with
      | none => rfl
      | some x =>
        obtain ⟨hplace, -⟩ := List.getElem?_eq_some_iff.mp hx
        simp only [Option.map_some]
        rw [separator_eq (by omega) (by omega) hlength (index_lt hgroup hplace)]
    -- the groups up to this one are followed by more numbers exactly if another group follows
    have hstart := (lt_length_groups (batch - 1) values line).mp
      (List.getElem?_eq_some_iff.mp hgroup).1
    have hnext := lt_length_groups (batch - 1) values (line + 1)
    rw [getElem?_groups, if_pos hstart, Option.some_inj] at hgroup
    have htaken := congrArg List.length hgroup
    rw [List.length_take, List.length_drop] at htaken
    rw [Nat.add_one_mul] at hnext
    have hends : line * (batch - 1 + 1) + group.length < values.length ↔
        line + 1 < (groups (batch - 1) values).length := by
      rw [hnext]
      omega
    simp only [Option.map_some, Option.some_inj]
    rw [hcommas, join_mapIdx_commas (by simpa using hne) _ (by rw [List.length_map]; omega),
      List.length_map]
    simp only [hends]

/-! ## Numbers on lines -/

theorem uncut_numberText (precision : Nat) (x : Binary64) : Uncut (numberText precision x) := by
  by_cases hfinite : x.isFinite = true
  · have hplain := Decimal.plain_fixed precision (x.scaled precision)
    have htext := @toList_numberText precision x hfinite
    constructor
    · intro hempty
      rw [hempty] at htext
      exact hplain.spelled_ne_nil _ htext.symm
    · rw [htext]
      intro hcomma
      rcases hplain.isDigit_of_mem hcomma with hc | hc | hc <;> cases hc
  · rw [numberText, if_neg hfinite]
    exact ⟨by decide, by decide⟩

/-- No number of these is refused: there are not too many places, or none of them is finite. -/
def Writable (precision : Nat) (values : List Binary64) : Prop :=
  precision ≤ maxPrecision ∨ ∀ x ∈ values, x.isFinite = false

/-- Numbers that are not refused all have their texts, and one that is leaves none. -/
theorem mapM_numberText? (precision : Nat) (values : List Binary64) :
    (Writable precision values →
      values.mapM (numberText? precision) = some (values.map (numberText precision))) ∧
    (¬ Writable precision values → values.mapM (numberText? precision) = none) := by
  constructor
  · intro h
    have htext : ∀ x ∈ values, numberText? precision x = some (numberText precision x) := by
      intro x hx
      rcases h with hplaces | hinfinite
      · exact numberText?_of_le hplaces x
      · simp [numberText?, hinfinite x hx]
    clear h
    induction values with
    | nil => rfl
    | cons x rest ih =>
      obtain ⟨hx, hrest⟩ := List.forall_mem_cons.mp htext
      rw [List.mapM_cons, hx, ih hrest]
      rfl
  · intro h
    rw [Writable, not_or] at h
    obtain ⟨hplaces, hfinite⟩ := h
    induction values with
    | nil => exact absurd (fun x hx => by cases hx) hfinite
    | cons x rest ih =>
      rw [List.mapM_cons]
      cases hx : x.isFinite with
      | true =>
        have hrefused : numberText? precision x = none := by simp [numberText?, hx]; omega
        rw [hrefused]
        rfl
      | false =>
        have hrest := ih fun hall => hfinite (List.forall_mem_cons.mpr ⟨hx, hall⟩)
        rw [hrest]
        cases numberText? precision x <;> rfl

/-- **The lines of an array are its list broken into batches**, for batches of any size. Numbers
with more places than can be written are refused as lines and as a list; all others are written, one
behind the other as the list is, with as many on each line as the batch says. Setting each comma by
the index of its number in words of sixty-four bits comes to the same, because no index reaches the
number of numbers. -/
theorem batch_lines_refine_list (precision batch : Nat) (values : List Binary64) :
    (Writable precision values → ∃ lines,
      batchLines? precision batch values = some lines ∧
      numberList? precision values = some (String.join lines) ∧
      Batched (max batch 1) (values.map (numberText precision)) lines ∧
      (batch < 2 ^ 64 → values.length < 2 ^ 64 →
        lines = indexedLines precision batch values ∧
        ∀ line group, (groups (max batch 1 - 1) values)[line]? = some group →
          ∀ place < group.length, line * max batch 1 + place < values.length ∧
            (UInt64.ofNat line * UInt64.ofNat (max batch 1) + UInt64.ofNat place).toNat =
              line * max batch 1 + place)) ∧
    (¬ Writable precision values →
      batchLines? precision batch values = none ∧ numberList? precision values = none) := by
  have hsize : max batch 1 = batch - 1 + 1 := by omega
  obtain ⟨hwritten, hrefused⟩ := mapM_numberText? precision values
  constructor
  · intro h
    have huncut : ∀ text ∈ values.map (numberText precision), Uncut text := by
      intro text htext
      obtain ⟨x, -, rfl⟩ := List.mem_map.mp htext
      exact uncut_numberText precision x
    have hbatched := batched_commaLines (batch - 1) huncut
    refine ⟨batchLines precision batch values, ?_, ?_, hsize ▸ hbatched, fun hbatch hlength => ?_⟩
    · rw [batchLines?, hwritten h]
      rfl
    · rw [numberList?, hwritten h, batchLines, hbatched.joined]
      rfl
    · refine ⟨(indexedLines_eq hbatch hlength).symm, fun line group hgroup place hplace => ?_⟩
      rw [hsize, Nat.add_sub_cancel] at hgroup
      have hindex := index_lt hgroup hplace
      rw [hsize]
      exact ⟨hindex, toNat_index (by omega) (hindex.trans hlength) (by omega)⟩
  · intro h
    rw [batchLines?, numberList?, hrefused h]
    exact ⟨rfl, rfl⟩

/-- Three numbers on lines of two: a full line and what is left. -/
theorem batch_lines_refine_list_short :
    let values : List Binary64 := [⟨0x3fe0000000000000⟩, ⟨0x3ff0000000000000⟩, ⟨0xc004000000000000⟩]
    Writable 10 values ∧ ∃ lines, batchLines? 10 2 values = some lines ∧ lines.length = 2 ∧
      lines[0]? = some "0.5,1," ∧ lines[1]? = some "-2.5" := by
  intro values
  have hwritable : Writable 10 values := Or.inl (by decide)
  obtain ⟨lines, hlines, -, hbatched, -⟩ := (batch_lines_refine_list 10 2 values).1 hwritable
  have htexts : values.map (numberText 10) = ["0.5", "1", "-2.5"] := by decide
  have hcount : lines.length = 2 := by
    rw [hbatched.count, htexts]
    rfl
  obtain ⟨_, _, rfl, -, hfirst, rfl⟩ := hbatched.full (i := 0) (by omega)
  obtain ⟨_, _, rfl, -, -, hsecond, rfl, -⟩ := hbatched.rest (i := 1) (by omega)
  rw [htexts] at hfirst hsecond
  exact ⟨hwritable, lines, hlines, hcount, hfirst, hsecond⟩

/-- One number with `65536` places makes no line. -/
theorem zero_refused_on_lines :
    let zero : Binary64 := ⟨0x8000000000000000⟩
    zero.isFinite = true ∧ [zero].length ⌈/⌉ max 1 1 = 1 ∧
      ∀ lines, batchLines? 65536 1 [zero] ≠ some lines := by
  intro zero
  refine ⟨by decide, by decide, fun lines => ?_⟩
  have hrefused : numberText? 65536 zero = none := by decide
  rw [batchLines?, List.mapM_cons, hrefused]
  intro hlines
  cases hlines

end NetScribe.Java
