import Kuatia.Collections.Loops
import Kuatia.Sql.Ordering

/-! # LIMIT and OFFSET over ties

Rows with the same value may come in any order, and in another one on the next
query. What the first rows of a result show depends on that order exactly when
the cut falls among rows with the same value that do not all show the same.
-/

namespace Sql

variable {Row V β : Type*} [LinearOrder β] {column : Row → β} {shown : Row → V} {rows : List Row}

/-- A result of the query: the rows, sorted by the column. -/
structure IsOrder (column : Row → β) (rows list : List Row) : Prop where
  perm : list.Perm rows
  sorted : list.Pairwise (column · ≤ column ·)

/-- The cut falls among rows with one value that do not all show the same. -/
def SplitsTie (column : Row → β) (shown : Row → V) (rows : List Row) (cut : Nat) : Prop :=
  ∃ first ∈ rows, ∃ second ∈ rows, shown first ≠ shown second ∧ column first = column second ∧
    rows.countP (column · < column first) < cut ∧ cut < rows.countP (column · ≤ column first)

theorem isOrder_orderBy {list : List Row} (hperm : list.Perm rows) :
    IsOrder column rows (orderBy column list) :=
  ⟨(orderBy_perm column list).trans hperm, orderBy_pairwise column list⟩

theorem orderBy_of_sorted {list : List Row} (hsorted : list.Pairwise (column · ≤ column ·)) :
    orderBy column list = list := hsorted.insertionSort_eq

/-! ## Where a value stands -/

/-- A sorted list: the rows below a value, those with it and those above. -/
theorem eq_append_of_sorted {list : List Row} (hsorted : list.Pairwise (column · ≤ column ·))
    (value : β) : list = list.filter (column · < value) ++
      (list.filter (column · = value) ++ list.filter (value < column ·)) := by
  induction list with
  | nil => rfl
  | cons head tail ih =>
      rw [List.pairwise_cons] at hsorted
      have htail := ih hsorted.2
      obtain hlt | heq | hgt := lt_trichotomy (column head) value
      · simp only [List.filter_cons, hlt, hlt.ne, hlt.not_gt, decide_true, decide_false, if_true,
          Bool.false_eq_true, if_false, List.cons_append]
        exact congrArg _ htail
      · have hnone : tail.filter (column · < value) = [] := by
          apply List.filter_eq_nil_iff.mpr
          intro row hrow
          simpa [← heq] using hsorted.1 row hrow
        rw [hnone, List.nil_append] at htail
        simp only [List.filter_cons, heq, lt_irrefl, hnone, decide_true, decide_false, if_true,
          Bool.false_eq_true, if_false, List.nil_append, List.cons_append]
        exact congrArg _ htail
      · have habove : ∀ row ∈ tail, value < column row :=
          fun row hrow => hgt.trans_le (hsorted.1 row hrow)
        have hbelow : tail.filter (column · < value) = [] := List.filter_eq_nil_iff.mpr
          fun row hrow => by simpa using (habove row hrow).le
        have hties : tail.filter (column · = value) = [] := List.filter_eq_nil_iff.mpr
          fun row hrow => by simpa using (habove row hrow).ne'
        have hself : tail.filter (value < column ·) = tail := List.filter_eq_self.mpr
          fun row hrow => by simpa using habove row hrow
        simp [hgt, hgt.not_gt, hgt.ne', hbelow, hties, hself]

theorem countP_le_eq (value : β) (rows : List Row) : rows.countP (column · ≤ value) =
    rows.countP (column · < value) + rows.countP (column · = value) := by
  induction rows with
  | nil => rfl
  | cons head tail ih =>
      simp only [List.countP_cons, ih]
      obtain hlt | heq | hgt := lt_trichotomy (column head) value
      · simp [hlt, hlt.le, hlt.ne]
        omega
      · simp [heq]
        omega
      · simp [hgt.not_gt, hgt.not_ge, hgt.ne']

/-- A row among the first ones: below its value, or a tie that the cut takes. -/
theorem take_of_sorted {list : List Row} (hsorted : list.Pairwise (column · ≤ column ·))
    {value : β} {cut : Nat} (hbelow : list.countP (column · < value) ≤ cut)
    (habove : cut ≤ list.countP (column · ≤ value)) :
    list.take cut = list.filter (column · < value) ++
      (list.filter (column · = value)).take (cut - list.countP (column · < value)) := by
  rw [countP_le_eq] at habove
  conv_lhs => rw [eq_append_of_sorted hsorted value]
  rw [List.take_append, List.take_of_length_le (by rw [← List.countP_eq_length_filter]; exact hbelow),
    ← List.countP_eq_length_filter, List.take_append_of_le_length]
  rw [← List.countP_eq_length_filter]
  omega

/-- The row after the cut stands between the counts of its value. -/
theorem count_of_getElem {list : List Row} (hsorted : list.Pairwise (column · ≤ column ·))
    {cut : Nat} (hcut : cut < list.length) :
    list.countP (column · < column list[cut]) ≤ cut ∧
      cut < list.countP (column · ≤ column list[cut]) := by
  have hsplit := eq_append_of_sorted hsorted (column list[cut])
  have hlength := congrArg List.length hsplit
  simp only [List.length_append, ← List.countP_eq_length_filter] at hlength
  rw [countP_le_eq]
  constructor
  · by_contra hbelow
    rw [not_le] at hbelow
    have hmem : list[cut] ∈ list.filter (column · < column list[cut]) := by
      have hget : list[cut]? = (list.filter (column · < column list[cut]))[cut]? := by
        conv_lhs => rw [hsplit]
        rw [List.getElem?_append_left (by rw [← List.countP_eq_length_filter]; exact hbelow)]
      rw [List.getElem?_eq_getElem hcut] at hget
      exact List.mem_of_getElem? hget.symm
    simp at hmem
  · by_contra habove
    rw [not_lt] at habove
    have hmem : list[cut] ∈ list.filter (column list[cut] < column ·) := by
      have hget : list[cut]? = (list.filter (column list[cut] < column ·))[cut -
          list.countP (column · < column list[cut]) -
            list.countP (column · = column list[cut])]? := by
        conv_lhs => rw [hsplit]
        rw [List.getElem?_append_right, List.getElem?_append_right,
          ← List.countP_eq_length_filter, ← List.countP_eq_length_filter]
        · rw [← List.countP_eq_length_filter, ← List.countP_eq_length_filter]
          omega
        · rw [← List.countP_eq_length_filter]
          omega
      rw [List.getElem?_eq_getElem hcut] at hget
      exact List.mem_of_getElem? hget.symm
    simp at hmem

namespace IsOrder

variable {first second list : List Row}

theorem length_eq (horder : IsOrder column rows list) : list.length = rows.length :=
  horder.perm.length_eq

/-! ## Cuts that are safe -/

/-- Where no tie is split, all results show the same first rows. -/
theorem take_perm (hfirst : IsOrder column rows first) (hsecond : IsOrder column rows second)
    {cut : Nat} (hsplit : ¬SplitsTie column shown rows cut) :
    ((first.take cut).map shown).Perm ((second.take cut).map shown) := by
  by_cases hcut : cut < first.length
  · let value := column first[cut]
    have hcounts : ∀ {list}, IsOrder column rows list →
        list.countP (column · < value) = rows.countP (column · < value) ∧
          list.countP (column · ≤ value) = rows.countP (column · ≤ value) :=
      fun horder => ⟨horder.perm.countP_eq _, horder.perm.countP_eq _⟩
    obtain ⟨hbelow, habove⟩ := count_of_getElem hfirst.sorted hcut
    -- up to the cut: every row below its value, then some of the ties
    have htake : ∀ {list}, IsOrder column rows list →
        list.take cut = list.filter (column · < value) ++
          (list.filter (column · = value)).take (cut - rows.countP (column · < value)) := by
      intro list horder
      rw [← (hcounts horder).1]
      apply take_of_sorted horder.sorted
      · rw [(hcounts horder).1, ← (hcounts hfirst).1]
        exact hbelow
      · rw [(hcounts horder).2, ← (hcounts hfirst).2]
        exact habove.le
    have hlower : (first.filter (column · < value)).Perm (second.filter (column · < value)) :=
      (hfirst.perm.trans hsecond.perm.symm).filter _
    rw [htake hfirst, htake hsecond, List.map_append, List.map_append]
    apply (hlower.map shown).append
    by_cases hinside : rows.countP (column · < value) < cut
    · -- The cut falls among ties, and these all show the same.
      have hties : ∀ row ∈ rows, column row = value → shown row = shown first[cut] := by
        intro row hrow hvalue
        by_contra hne
        apply hsplit
        refine ⟨row, hrow, first[cut], hfirst.perm.mem_iff.mp (List.getElem_mem hcut), hne,
          hvalue, ?_, ?_⟩
        · rw [hvalue]
          exact hinside
        · rw [hvalue, ← (hcounts hfirst).2]
          exact habove
      have hreplicate : ∀ {list}, IsOrder column rows list → ∀ count,
          ((list.filter (column · = value)).take count).map shown = List.replicate
            (min count (rows.countP (column · = value))) (shown first[cut]) := by
        intro list horder count
        apply List.eq_replicate_iff.mpr
        constructor
        · rw [List.length_map, List.length_take, ← List.countP_eq_length_filter,
            horder.perm.countP_eq]
        · intro other hother
          obtain ⟨row, hrow, rfl⟩ := List.mem_map.mp hother
          obtain ⟨hmem, hvalue⟩ := List.mem_filter.mp (List.mem_of_mem_take hrow)
          exact hties row (horder.perm.mem_iff.mp hmem) (of_decide_eq_true hvalue)
      rw [hreplicate hfirst, hreplicate hsecond]
    · rw [Nat.sub_eq_zero_of_le (not_lt.mp hinside)]
      simp
  · -- the cut is past the end, and takes everything
    rw [not_lt] at hcut
    rw [List.take_of_length_le hcut, List.take_of_length_le]
    · exact (hfirst.perm.trans hsecond.perm.symm).map shown
    · rw [hsecond.length_eq, ← hfirst.length_eq]
      exact hcut

/-- A page between two safe cuts shows the same in all results. -/
theorem page_perm (hfirst : IsOrder column rows first) (hsecond : IsOrder column rows second)
    {offset limit : Nat} (hstart : ¬SplitsTie column shown rows offset)
    (hend : ¬SplitsTie column shown rows (offset + limit)) :
    (((first.drop offset).take limit).map shown).Perm
      (((second.drop offset).take limit).map shown) := by
  have hwhole := hfirst.take_perm hsecond hend
  rw [List.take_add, List.take_add, List.map_append, List.map_append] at hwhole
  have hbefore := hfirst.take_perm hsecond hstart
  exact (List.perm_append_left_iff _).mp ((hbefore.symm.append_right _).trans hwhole)

end IsOrder

/-! ## Cuts that are not -/

/-- The rows with one value may come in any order. -/
theorem isOrder_of_ties {value : β} {group : List Row}
    (hgroup : group.Perm ((orderBy column rows).filter (column · = value))) :
    IsOrder column rows ((orderBy column rows).filter (column · < value) ++
      (group ++ (orderBy column rows).filter (value < column ·))) := by
  have hsorted := orderBy_pairwise column rows
  have hwhole := eq_append_of_sorted hsorted value
  have hties : ∀ {list : List Row}, list.Perm ((orderBy column rows).filter (column · = value)) →
      list.map column = List.replicate group.length value := by
    intro list hperm
    apply List.eq_replicate_iff.mpr
    refine ⟨by rw [List.length_map, hperm.length_eq, hgroup.length_eq], ?_⟩
    intro other hother
    obtain ⟨row, hrow, rfl⟩ := List.mem_map.mp hother
    exact of_decide_eq_true (List.mem_filter.mp (hperm.mem_iff.mp hrow)).2
  constructor
  · apply List.Perm.trans _ (orderBy_perm column rows)
    conv_rhs => rw [hwhole]
    exact (hgroup.append_right _).append_left _
  · -- The values are those of the sorted list.
    have hvalues : ((orderBy column rows).filter (column · < value) ++
        (group ++ (orderBy column rows).filter (value < column ·))).map column =
        (orderBy column rows).map column := by
      conv_rhs => rw [hwhole]
      simp only [List.map_append]
      rw [hties hgroup, hties (.refl _)]
    rw [← List.pairwise_map (R := (· ≤ ·)), hvalues, List.pairwise_map]
    exact hsorted

/-- Where a tie is split, two results differ in the rows next to the cut. -/
theorem exists_of_splitsTie {cut : Nat} (hsplit : SplitsTie column shown rows cut) :
    ∃ before first second after, shown first ≠ shown second ∧ before.length + 1 = cut ∧
      IsOrder column rows (before ++ first :: second :: after) ∧
      IsOrder column rows (before ++ second :: first :: after) := by
  classical
  obtain ⟨first, hfirst, second, hsecond, hne, hvalue, hbelow, habove⟩ := hsplit
  have hperm := orderBy_perm column rows
  let lower := (orderBy column rows).filter (column · < column first)
  let upper := (orderBy column rows).filter (column first < column ·)
  let ties := (orderBy column rows).filter (column · = column first)
  have hfirstTie : first ∈ ties := by simp [ties, hfirst]
  have hsecondTie : second ∈ ties.erase first := by
    rw [List.mem_erase_of_ne fun heq => hne (congrArg shown heq.symm)]
    simp [ties, hsecond, hvalue]
  let others := (ties.erase first).erase second
  have hothers : ties.Perm (first :: second :: others) :=
    (List.perm_cons_erase hfirstTie).trans ((List.perm_cons_erase hsecondTie).cons first)
  have hlower : lower.length = rows.countP (column · < column first) := by
    rw [← hperm.countP_eq, List.countP_eq_length_filter]
  have hcount : ties.length = rows.countP (column · = column first) := by
    rw [← hperm.countP_eq, List.countP_eq_length_filter]
  rw [countP_le_eq, ← hlower, ← hcount, hothers.length_eq, List.length_cons,
    List.length_cons] at habove
  rw [← hlower] at hbelow
  let position := cut - 1 - lower.length
  have hposition : position ≤ others.length := by omega
  have hgroup : ∀ {left right : Row}, (left :: right :: others).Perm ties →
      IsOrder column rows
        ((lower ++ others.take position) ++ left :: right :: (others.drop position ++ upper)) := by
    intro left right hpair
    have hmiddle : (others.take position ++ left :: right :: others.drop position).Perm ties := by
      refine (List.perm_middle.trans (List.perm_middle.cons left)).trans ?_
      rw [List.take_append_drop]
      exact hpair
    have horder := isOrder_of_ties hmiddle
    simp only [List.append_assoc, List.cons_append] at horder ⊢
    exact horder
  refine ⟨_, first, second, _, hne, ?_, hgroup hothers.symm,
    hgroup ((List.Perm.swap _ _ _).trans hothers.symm)⟩
  rw [List.length_append, List.length_take_of_le hposition]
  omega

/-- A page with a split tie at one of its ends does not show the same always. -/
theorem exists_page_not_perm {offset limit : Nat} (hlimit : 0 < limit)
    (hsplit : SplitsTie column shown rows offset ∨ SplitsTie column shown rows (offset + limit)) :
    ∃ first second, IsOrder column rows first ∧ IsOrder column rows second ∧
      ¬(((first.drop offset).take limit).map shown).Perm
        (((second.drop offset).take limit).map shown) := by
  obtain hsplit | hsplit := hsplit
  · obtain ⟨before, first, second, after, hne, hcut, hfirst, hsecond⟩ := exists_of_splitsTie hsplit
    refine ⟨_, _, hfirst, hsecond, fun hperm => hne ?_⟩
    have hdrop : ∀ left right : Row,
        (before ++ left :: right :: after).drop offset = right :: after := by
      intro left right
      rw [← hcut, List.drop_append, List.drop_of_length_le (by omega)]
      simp
    obtain ⟨rest, rfl⟩ := Nat.exists_eq_add_of_le' hlimit
    rw [hdrop, hdrop, List.take_succ_cons, List.take_succ_cons, List.map_cons, List.map_cons] at hperm
    exact (List.singleton_perm_singleton.mp ((List.perm_append_right_iff _).mp hperm)).symm
  · obtain ⟨before, first, second, after, hne, hcut, hfirst, hsecond⟩ := exists_of_splitsTie hsplit
    refine ⟨_, _, hfirst, hsecond, fun hperm => hne ?_⟩
    have htake : ∀ left right : Row, ((before ++ left :: right :: after).drop offset).take limit =
        before.drop offset ++ [left] := by
      intro left right
      rw [List.drop_append_of_le_length (by omega), List.take_append,
        List.take_of_length_le (by rw [List.length_drop]; omega), List.length_drop]
      have hone : limit - (before.length - offset) = 1 := by omega
      rw [hone]
      rfl
    rw [htake, htake, List.map_append, List.map_append] at hperm
    exact List.singleton_perm_singleton.mp ((List.perm_append_left_iff _).mp hperm)

/-- What a cut splits depends only on the values and on what is shown. -/
theorem splitsTie_map_iff {Row' : Type*} {read : Row → Row'} {column' : Row' → β}
    {shown' : Row' → V} (hcolumn : ∀ row ∈ rows, column' (read row) = column row)
    (hshown : ∀ row ∈ rows, shown' (read row) = shown row) {cut : Nat} :
    SplitsTie column' shown' (rows.map read) cut ↔ SplitsTie column shown rows cut := by
  have hcounts : ∀ test : β → Bool, (rows.map read).countP (fun row => test (column' row)) =
      rows.countP fun row => test (column row) := by
    intro test
    rw [List.countP_map]
    apply List.countP_congr
    intro row hrow
    simp [hcolumn row hrow]
  unfold SplitsTie
  simp only [List.mem_map, exists_exists_and_eq_and]
  apply exists_congr
  intro first
  apply and_congr_right
  intro hfirst
  apply exists_congr
  intro second
  apply and_congr_right
  intro hsecond
  rw [hshown first hfirst, hshown second hsecond, hcolumn first hfirst, hcolumn second hsecond,
    hcounts fun value => value < column first, hcounts fun value => value ≤ column first]

theorem SplitsTie.perm {other : List Row} {cut : Nat} (hsplit : SplitsTie column shown rows cut)
    (hperm : rows.Perm other) : SplitsTie column shown other cut := by
  obtain ⟨first, hfirst, second, hsecond, hne, hvalue, hbelow, habove⟩ := hsplit
  refine ⟨first, hperm.mem_iff.mp hfirst, second, hperm.mem_iff.mp hsecond, hne, hvalue, ?_, ?_⟩
  · rw [← hperm.countP_eq]
    exact hbelow
  · rw [← hperm.countP_eq]
    exact habove

/-! ## All pages -/

/-- The pages of a size, one after the other, each from its own result. -/
def pages (size : Nat) (results : Nat → List Row) (count : Nat) : List Row :=
  (List.range count).flatMap fun index => ((results index).drop (index * size)).take size

theorem pages_succ (size : Nat) (results : Nat → List Row) (count : Nat) :
    pages size results (count + 1) =
      pages size results count ++ ((results count).drop (count * size)).take size := by
  simp [pages, List.range_succ]

theorem pages_const (size : Nat) (list : List Row) (count : Nat) :
    pages size (fun _ => list) count = list.take (count * size) := by
  induction count with
  | zero => simp [pages]
  | succ count ih => rw [pages_succ, ih, Nat.succ_mul, List.take_add]

theorem pages_congr {size : Nat} {results others : Nat → List Row} {count : Nat}
    (hsame : ∀ index < count, results index = others index) :
    pages size results count = pages size others count := by
  unfold pages
  apply List.flatMap_congr
  intro index hindex
  rw [hsame index (List.mem_range.mp hindex)]

/-- One result for the first pages and another one for the rest. -/
theorem pages_ite (size : Nat) (first second : List Row) (middle count : Nat) :
    pages size (fun index => if index < middle then first else second) (middle + count) =
      first.take (middle * size) ++ (second.drop (middle * size)).take (count * size) := by
  induction count with
  | zero =>
      have hfirst : pages size (fun index => if index < middle then first else second) middle =
          pages size (fun _ => first) middle := pages_congr fun index hindex => if_pos hindex
      rw [Nat.add_zero, hfirst, pages_const]
      simp
  | succ count ih =>
      rw [← Nat.add_assoc, pages_succ, ih, if_neg (by omega), Nat.succ_mul, List.take_add,
        List.append_assoc, List.drop_drop, Nat.add_mul]

/-- Pages between safe cuts show all rows, each once. -/
theorem pages_perm {size count : Nat} {results : Nat → List Row}
    (hresults : ∀ index, IsOrder column rows (results index))
    (hsafe : ∀ index < count, ¬SplitsTie column shown rows (index * size))
    (hcover : rows.length ≤ count * size) :
    ((pages size results count).map shown).Perm (rows.map shown) := by
  have hupTo : ∀ upTo ≤ count, ((pages size results upTo).map shown).Perm
      (((orderBy column rows).take (upTo * size)).map shown) := by
    intro upTo hupTo
    induction upTo with
    | zero => simp [pages]
    | succ upTo ih =>
        have hresult := hresults upTo
        have hreference : IsOrder column rows (orderBy column rows) := isOrder_orderBy (.refl _)
        have hstart := hreference.take_perm hresult (hsafe upTo (by omega))
        have hend : ¬SplitsTie column shown rows ((upTo + 1) * size) := by
          by_cases hlast : upTo + 1 < count
          · exact hsafe (upTo + 1) hlast
          · rintro ⟨_, _, _, _, _, _, _, habove⟩
            have hle := habove.trans_le List.countP_le_length
            have heq : upTo + 1 = count := by omega
            rw [heq] at hle
            omega
        have hwhole := hresult.take_perm hreference hend
        rw [Nat.succ_mul, List.take_add, List.map_append] at hwhole
        rw [pages_succ, List.map_append, Nat.succ_mul]
        exact (((ih (by omega)).trans hstart).append_right _).trans hwhole
  apply (hupTo count le_rfl).trans
  rw [List.take_of_length_le]
  · exact (orderBy_perm column rows).map shown
  · rw [(orderBy_perm column rows).length_eq]
    exact hcover

/-- Pages across a tie may show a row twice and another one never. -/
theorem exists_pages_not_perm {size count middle : Nat} (hmiddle : middle < count)
    (hsplit : SplitsTie column shown rows (middle * size))
    (hcover : rows.length ≤ count * size) :
    ∃ results : Nat → List Row, (∀ index, IsOrder column rows (results index)) ∧
      ¬((pages size results count).map shown).Perm (rows.map shown) := by
  obtain ⟨before, first, second, after, hne, hcut, hfirst, hsecond⟩ := exists_of_splitsTie hsplit
  let results (index : Nat) := if index < middle then before ++ first :: second :: after
    else before ++ second :: first :: after
  refine ⟨results, ?_, fun hperm => hne ?_⟩
  · intro index
    by_cases hindex : index < middle
    · simpa only [results, if_pos hindex] using hfirst
    · simpa only [results, if_neg hindex] using hsecond
  · obtain ⟨rest, rfl⟩ := Nat.exists_eq_add_of_le hmiddle.le
    have hwhole : before.length + 2 + after.length ≤ (middle + rest) * size := by
      have hlength := hfirst.length_eq
      simp only [List.length_append, List.length_cons] at hlength
      omega
    have htake : (before ++ first :: second :: after).take (middle * size) = before ++ [first] := by
      rw [← hcut, List.take_append, List.take_of_length_le (by omega)]
      simp
    have hdrop : (before ++ second :: first :: after).drop (middle * size) = first :: after := by
      rw [← hcut, List.drop_append, List.drop_of_length_le (by omega)]
      simp
    have hpages : pages size results (middle + rest) = before ++ [first] ++ first :: after := by
      rw [pages_ite, htake, hdrop, List.take_of_length_le]
      rw [Nat.add_mul] at hwhole
      rw [List.length_cons]
      omega
    rw [hpages] at hperm
    have hboth := hperm.trans (hfirst.perm.map shown).symm
    simp only [List.map_append, List.map_cons, List.append_assoc, List.perm_append_left_iff,
      List.cons_append, List.nil_append, List.perm_cons] at hboth
    have hlast : (List.map shown (first :: after)).Perm (List.map shown (second :: after)) := hboth
    rw [List.map_cons, List.map_cons] at hlast
    exact List.singleton_perm_singleton.mp ((List.perm_append_right_iff (after.map shown)).mp hlast)

end Sql
