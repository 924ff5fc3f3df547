import Reclaim.Text.Items

/-!
# Where items begin and end

The first item of a text ends at the first separator, or with the text
(`Text.exists_of_pieces_cons`), and the items behind it are those of what is left. So a text that is
empty or ends in a separator has the same items whatever comes behind it, as many as it has
separators, and what comes behind it adds its own (`Text.items_append`).
-/

set_option autoImplicit false

namespace Reclaim.Text

variable {sep c : Char} {cs piece : List Char} {more : List (List Char)}

@[simp] theorem pieces_cons_self (sep : Char) (cs : List Char) :
    pieces sep (sep :: cs) = [] :: pieces sep cs := by
  simp [pieces]

theorem pieces_cons_of_nil (ne : c ≠ sep) (last : pieces sep cs = []) :
    pieces sep (c :: cs) = [[c]] := by
  simp [pieces, ne, last]

theorem pieces_cons_of_cons (ne : c ≠ sep) (first : pieces sep cs = piece :: more) :
    pieces sep (c :: cs) = (c :: piece) :: more := by
  simp [pieces, ne, first]

theorem pieces_eq_nil_iff : pieces sep cs = [] ↔ cs = [] := by
  constructor
  · intro none
    cases cs with
    | nil => rfl
    | cons c cs =>
      by_cases e : c = sep
      · subst e
        simp at none
      · cases first : pieces sep cs with
        | nil =>
          rw [pieces_cons_of_nil e first] at none
          cases none
        | cons piece more =>
          rw [pieces_cons_of_cons e first] at none
          cases none
  · rintro rfl
    rfl

/-- A stretch without separators is the first item if a separator ends it. -/
theorem pieces_append_sep (apart : sep ∉ piece) (cs : List Char) :
    pieces sep (piece ++ sep :: cs) = piece :: pieces sep cs := by
  induction piece with
  | nil => exact pieces_cons_self sep cs
  | cons c piece ih =>
    rw [List.mem_cons, not_or] at apart
    exact pieces_cons_of_cons (Ne.symm apart.1) (ih apart.2)

/-- It is the only item if the text ends with it. -/
theorem pieces_of_not_mem (apart : sep ∉ piece) (ne : piece ≠ []) :
    pieces sep piece = [piece] := by
  induction piece with
  | nil => exact absurd rfl ne
  | cons c piece ih =>
    rw [List.mem_cons, not_or] at apart
    cases piece with
    | nil => exact pieces_cons_of_nil (Ne.symm apart.1) rfl
    | cons d piece => exact pieces_cons_of_cons (Ne.symm apart.1) (ih apart.2 (List.cons_ne_nil _ _))

/-- The first item ends with the text or at a separator, behind which the others follow. -/
theorem exists_of_pieces_cons (cut : pieces sep cs = piece :: more) :
    (cs = piece ∧ more = []) ∨ ∃ rest, cs = piece ++ sep :: rest ∧ pieces sep rest = more := by
  induction cs generalizing piece with
  | nil => cases cut
  | cons c cs ih =>
    by_cases e : c = sep
    · subst e
      rw [pieces_cons_self] at cut
      cases cut
      exact .inr ⟨cs, rfl, rfl⟩
    · cases first : pieces sep cs with
      | nil =>
        rw [pieces_cons_of_nil e first] at cut
        cases cut
        obtain rfl := pieces_eq_nil_iff.mp first
        exact .inl ⟨rfl, rfl⟩
      | cons start others =>
        rw [pieces_cons_of_cons e first] at cut
        cases cut
        rcases ih first with ⟨rfl, last⟩ | ⟨rest, rfl, behind⟩
        · exact .inl ⟨rfl, last⟩
        · exact .inr ⟨rest, rfl, behind⟩

/-- The items are given stretches just if the text consists of them, with separators between them
and perhaps one behind the last. -/
theorem pieces_eq_iff (apart : ∀ q ∈ piece :: more, sep ∉ q) (ne : ∀ q ∈ piece :: more, q ≠ []) :
    pieces sep cs = piece :: more ↔
      cs = [sep].intercalate (piece :: more) ∨ cs = [sep].intercalate (piece :: more) ++ [sep] := by
  induction more generalizing piece cs with
  | nil =>
    rw [List.forall_mem_singleton] at apart ne
    rw [List.intercalate_singleton]
    constructor
    · intro cut
      rcases exists_of_pieces_cons cut with ⟨alone, -⟩ | ⟨rest, split, none⟩
      · exact .inl alone
      · rw [pieces_eq_nil_iff.mp none] at split
        exact .inr split
    · rintro (rfl | rfl)
      · exact pieces_of_not_mem apart ne
      · exact pieces_append_sep apart []
  | cons second others ih =>
    obtain ⟨here, behind⟩ := List.forall_mem_cons.mp apart
    replace ih := fun rest => @ih rest second behind (List.forall_mem_cons.mp ne).2
    rw [List.intercalate_cons_cons, List.append_assoc, List.append_assoc, List.append_assoc,
      List.singleton_append, List.singleton_append]
    constructor
    · intro cut
      rcases exists_of_pieces_cons cut with ⟨-, none⟩ | ⟨rest, rfl, left⟩
      · cases none
      · rcases (ih rest).mp left with rfl | rfl
        · exact .inl rfl
        · exact .inr rfl
    · rintro (rfl | rfl)
      · rw [pieces_append_sep here, (ih _).mpr (.inl rfl)]
      · rw [pieces_append_sep here, (ih _).mpr (.inr rfl)]

/-- The items are the stretches between separators, up to an empty one at the very end. -/
theorem pieces_prefix_splitOn (sep : Char) (cs : List Char) :
    pieces sep cs <+: cs.splitOn sep := by
  induction cs with
  | nil => exact List.nil_prefix
  | cons c cs ih =>
    have split : (c :: cs).splitOn sep =
        if c = sep then [] :: cs.splitOn sep else (cs.splitOn sep).modifyHead (c :: ·) := by
      simp [List.splitOn, List.splitOnP_cons_eq_if_modifyHead]
    obtain ⟨tail, ih⟩ := ih
    rw [split]
    by_cases e : c = sep
    · subst e
      simp [← ih]
    · rw [if_neg e]
      cases first : pieces sep cs with
      | nil =>
        obtain rfl := pieces_eq_nil_iff.mp first
        rw [pieces_cons_of_nil e first]
        simp
      | cons start others =>
        rw [pieces_cons_of_cons e first, ← ih, first]
        simp

/-- A text that is empty or ends in a separator: stretches, each with the separator that ends it. -/
inductive Ended (sep : Char) : List Char → Prop where
  | nil : Ended sep []
  | cons {piece cs : List Char} : sep ∉ piece → Ended sep cs → Ended sep (piece ++ sep :: cs)

theorem ended_append_singleton (sep : Char) (cs : List Char) : Ended sep (cs ++ [sep]) := by
  induction cs with
  | nil => exact .cons List.not_mem_nil .nil
  | cons c cs ih =>
    by_cases e : c = sep
    · subst e
      exact @Ended.cons c [] _ List.not_mem_nil ih
    · generalize closed : cs ++ [sep] = text at ih
      cases ih with
      | nil => simp at closed
      | @cons piece rest apart ended =>
        rw [List.cons_append, closed]
        exact @Ended.cons sep (c :: piece) rest (by simp [apart, Ne.symm e]) ended

theorem Ended.pieces_append (ended : Ended sep cs) (others : List Char) :
    pieces sep (cs ++ others) = pieces sep cs ++ pieces sep others := by
  induction ended with
  | nil => rfl
  | cons apart _ ih =>
    rw [List.append_assoc, List.cons_append, pieces_append_sep apart, pieces_append_sep apart, ih]
    rfl

theorem Ended.length_pieces (ended : Ended sep cs) : (pieces sep cs).length = cs.count sep := by
  induction ended with
  | nil => rfl
  | cons apart _ ih =>
    rw [pieces_append_sep apart, List.length_cons, ih, List.count_append,
      List.count_eq_zero.mpr apart, List.count_cons_self, Nat.zero_add]

variable {s : String}

/-- The text is empty or ends in a separator. -/
theorem ended_toList (closed : s = "" ∨ ∃ u, s = u ++ String.singleton sep) : Ended sep s.toList := by
  obtain rfl | ⟨u, rfl⟩ := closed
  · exact .nil
  · rw [String.toList_append, String.toList_singleton]
    exact ended_append_singleton sep u.toList

/-- The items of a text are given ones just if the text consists of them, with separators between
them and perhaps one behind the last. -/
theorem items_eq_iff {item : String} {others : List String}
    (apart : ∀ u ∈ item :: others, sep ∉ u.toList) (ne : ∀ u ∈ item :: others, u ≠ "") :
    items sep s = item :: others ↔
      s = (String.singleton sep).intercalate (item :: others) ∨
      s = (String.singleton sep).intercalate (item :: others) ++ String.singleton sep := by
  have cut : items sep s = item :: others ↔
      pieces sep s.toList = (item :: others).map String.toList := by
    constructor
    · intro cut
      simp [← cut, items]
    · intro cut
      simp [items, cut]
  have apart : ∀ q ∈ (item :: others).map String.toList, sep ∉ q := List.forall_mem_map.mpr apart
  have ne : ∀ q ∈ (item :: others).map String.toList, q ≠ [] :=
    List.forall_mem_map.mpr fun u mem => mt String.toList_eq_nil_iff.mp (ne u mem)
  rw [cut, List.map_cons, pieces_eq_iff apart ne, ← List.map_cons]
  simp only [← String.toList_inj, String.toList_append, String.toList_intercalate,
    String.toList_singleton]

/-- What comes behind a separator adds its own items. -/
theorem items_append (ended : Ended sep s.toList) (t : String) :
    items sep (s ++ t) = items sep s ++ items sep t := by
  rw [items, items, items, String.toList_append, ended.pieces_append, List.map_append]

/-- Each item is ended by its own separator. -/
theorem length_items (ended : Ended sep s.toList) : (items sep s).length = s.toList.count sep := by
  rw [items, List.length_map, ended.length_pieces]

end Reclaim.Text
