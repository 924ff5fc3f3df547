import Mathlib.Algebra.Ring.Nat
import Mathlib.Data.List.Forall2
import Reclaim.Proofs.Items
import Reclaim.Proofs.Numerals
import Reclaim.Text.Settings

/-!
# Lists of thresholds

The grammar of a list of thresholds is three numerals with commas between them, and perhaps one
behind the last, each of a positive number that fits a machine word (`Thresholds.Lists`). Exactly
the texts of the grammar are read, as the numbers they denote; any other text is refused, for a
numeral that fits no machine word or for a setting that is not valid
(`Thresholds.ofText_grammar`).
-/

set_option autoImplicit false

namespace Reclaim

/-! ## Reading one item after the other -/

section

variable {α β ε : Type} {f : α → Except ε β} {as : List α} {bs : List β} {e : ε}

theorem mapM_eq_ok_iff : as.mapM f = .ok bs ↔ List.Forall₂ (fun a b => f a = .ok b) as bs := by
  induction as generalizing bs with
  | nil =>
    rw [List.mapM_nil, List.forall₂_nil_left_iff]
    constructor
    · intro none
      cases none
      rfl
    · rintro rfl
      rfl
  | cons a as ih =>
    rw [List.mapM_cons, List.forall₂_cons_left_iff]
    constructor
    · intro read
      cases first : f a with
      | error e => simp [first, bind, Except.bind] at read
      | ok b =>
        cases rest : as.mapM f with
        | error e => simp [first, rest, bind, Except.bind] at read
        | ok others =>
          simp [first, rest, bind, Except.bind, pure, Except.pure] at read
          exact ⟨b, others, rfl, ih.mp rest, read.symm⟩
    · rintro ⟨b, others, first, rest, rfl⟩
      simp [first, ih.mpr rest, bind, Except.bind, pure, Except.pure]

/-- An item is at fault if the items are refused. -/
theorem exists_of_mapM_eq_error (refused : as.mapM f = .error e) : ∃ a ∈ as, f a = .error e := by
  induction as with
  | nil => cases refused
  | cons a as ih =>
    rw [List.mapM_cons] at refused
    cases first : f a with
    | error e' =>
      simp [first, bind, Except.bind] at refused
      exact ⟨a, List.mem_cons_self, first.trans (congrArg _ refused)⟩
    | ok b =>
      cases rest : as.mapM f with
      | error e' =>
        simp [first, rest, bind, Except.bind] at refused
        obtain ⟨item, mem, fault⟩ := ih (rest.trans (congrArg _ refused))
        exact ⟨item, List.mem_cons_of_mem a mem, fault⟩
      | ok others => simp [first, rest, bind, Except.bind, pure, Except.pure] at refused

end

namespace Thresholds

open Text

variable {text item : String} {n : Nat} {t : Thresholds} {fault : Fault}

theorem countOfItem_eq_ok_iff : countOfItem item = .ok n ↔ Denotes item n ∧ n < wordSize := by
  rw [← numeral?_eq_some_iff]
  unfold countOfItem
  cases numeral? item with
  | none => simp
  | some m =>
    by_cases fits : m < wordSize
    · simp only [if_pos fits, Except.ok.injEq, Option.some.injEq]
      constructor
      · rintro rfl
        exact ⟨rfl, fits⟩
      · exact And.left
    · simp only [if_neg fits, reduceCtorEq, Option.some.injEq, false_iff, not_and]
      rintro rfl
      exact fits

/-- An item is refused if it is no numeral, or the numeral of a number that fits no machine
word. -/
theorem fault_of_countOfItem (refused : countOfItem item = .error fault) :
    (fault = .numeralOverflow ∧ ∃ n, wordSize ≤ n ∧ Denotes item n) ∨
      fault = .invalidConfiguration (.thresholdNumeral item) := by
  unfold countOfItem at refused
  split at refused
  · cases refused
    exact .inr rfl
  · next n read =>
    split at refused
    · cases refused
    · next large =>
      cases refused
      exact .inl ⟨rfl, n, Nat.le_of_not_lt large, numeral?_eq_some_iff.mp read⟩

/-! ## Reading a whole list -/

/-- The items of a list that is read denote the thresholds. -/
theorem ofText_eq_ok_iff :
    ofText text = .ok t ↔
      List.Forall₂ (fun item n => Denotes item n ∧ n < wordSize) (items ',' text)
        t.counts.toList := by
  simp only [← countOfItem_eq_ok_iff, ← mapM_eq_ok_iff]
  constructor
  · intro read
    unfold ofText at read
    cases counts : ((items ',' text).take 3).mapM countOfItem with
    | error fault => simp [counts, bind, Except.bind] at read
    | ok counts =>
      simp only [counts, bind, Except.bind] at read
      split at read
      · next young middle old none =>
        have whole := (items ',' text).take_append_drop 3
        rw [none, List.append_nil] at whole
        rw [counts_of_ofCounts read, ← whole]
        exact counts
      · cases read
  · intro read
    have length := (mapM_eq_ok_iff.mp read).length_eq
    rw [Vector.length_toList] at length
    simp only [ofText, List.take_of_length_le (Nat.le_of_eq length),
      List.drop_of_length_le (Nat.le_of_eq length), read]
    have accepted := ofCounts_counts t
    rw [t.counts.eta] at accepted ⊢
    exact accepted

/-- A list is refused for an item that fits no machine word, or for a setting that is not valid. -/
theorem fault_of_ofText (refused : ofText text = .error fault) :
    (fault = .numeralOverflow ∧ ∃ item ∈ items ',' text, ∃ n, wordSize ≤ n ∧ Denotes item n) ∨
      ∃ cause, fault = .invalidConfiguration cause := by
  unfold ofText at refused
  cases counts : ((items ',' text).take 3).mapM countOfItem with
  | error fault' =>
    simp [counts, bind, Except.bind] at refused
    obtain ⟨item, mem, invalid⟩ := exists_of_mapM_eq_error counts
    rw [refused] at invalid
    rcases fault_of_countOfItem invalid with ⟨overflow, large⟩ | invalid
    · exact .inl ⟨overflow, item, List.mem_of_mem_take mem, large⟩
    · exact .inr ⟨_, invalid⟩
  | ok counts =>
    simp only [counts, bind, Except.bind] at refused
    split at refused
    · obtain ⟨g, -, zero⟩ := exists_of_ofCounts refused
      exact .inr ⟨_, zero⟩
    · cases refused
      exact .inr ⟨_, rfl⟩

/-- An item stands for a positive number that fits a machine word. -/
structure Positive (item : String) (n : Nat) : Prop where
  denotes : Denotes item n
  positive : 1 ≤ n
  fits : n ≤ 2 ^ 64 - 1

/-- The grammar: three numerals with commas between them, and perhaps one behind the last. -/
def Lists (text : String) (a b c : Nat) : Prop :=
  ∃ A B C : String,
    (text = A ++ "," ++ B ++ "," ++ C ∨ text = A ++ "," ++ B ++ "," ++ C ++ ",") ∧
      Positive A a ∧ Positive B b ∧ Positive C c

/-- Three numerals are the items of a text just if the text consists of them, with commas between
them and perhaps one behind the last. -/
theorem items_eq_iff_of_positive {A B C : String} {a b c : Nat} (ha : Positive A a)
    (hb : Positive B b) (hc : Positive C c) :
    items ',' text = [A, B, C] ↔
      text = A ++ "," ++ B ++ "," ++ C ∨ text = A ++ "," ++ B ++ "," ++ C ++ "," := by
  have apart : ∀ u ∈ [A, B, C], ',' ∉ u.toList := by
    simp [ha.denotes.not_mem, hb.denotes.not_mem, hc.denotes.not_mem]
  have nonempty : ∀ u ∈ [A, B, C], u ≠ "" := by
    simp [ha.denotes.nonempty, hb.denotes.nonempty, hc.denotes.nonempty]
  have comma : String.singleton ',' = "," := rfl
  rw [items_eq_iff apart nonempty, comma]
  simp only [String.intercalate_cons_cons, String.intercalate_singleton, String.append_assoc]

/-- Exactly the texts of the grammar are read, as the numbers that they list. -/
theorem lists_iff {a b c : Nat} :
    Lists text a b c ↔ ∃ t, ofText text = .ok t ∧ t.counts = #v[a, b, c] := by
  constructor
  · rintro ⟨A, B, C, spelled, ha, hb, hc⟩
    have positive : ∀ g : Generation, 0 < (#v[a, b, c] : PerGeneration Nat).get g
      | 0 => ha.positive
      | 1 => hb.positive
      | 2 => hc.positive
    refine ⟨⟨#v[a, b, c], positive⟩, ofText_eq_ok_iff.mpr ?_, rfl⟩
    rw [(items_eq_iff_of_positive ha hb hc).mpr spelled]
    have word {n : Nat} (fits : n ≤ 2 ^ 64 - 1) : n < wordSize := Nat.lt_of_le_pred (by decide) fits
    exact .cons ⟨ha.denotes, word ha.fits⟩ (.cons ⟨hb.denotes, word hb.fits⟩
      (.cons ⟨hc.denotes, word hc.fits⟩ .nil))
  · rintro ⟨⟨_, positive⟩, read, rfl⟩
    obtain ⟨A, _, hA, two, split⟩ := List.forall₂_cons_right_iff.mp (ofText_eq_ok_iff.mp read)
    obtain ⟨B, _, hB, one, rfl⟩ := List.forall₂_cons_right_iff.mp two
    obtain ⟨C, _, hC, none, rfl⟩ := List.forall₂_cons_right_iff.mp one
    obtain rfl := List.forall₂_nil_right_iff.mp none
    have ha : Positive A a := ⟨hA.1, positive 0, Nat.le_sub_one_of_lt hA.2⟩
    have hb : Positive B b := ⟨hB.1, positive 1, Nat.le_sub_one_of_lt hB.2⟩
    have hc : Positive C c := ⟨hC.1, positive 2, Nat.le_sub_one_of_lt hC.2⟩
    exact ⟨A, B, C, (items_eq_iff_of_positive ha hb hc).mp split, ha, hb, hc⟩

/-- Decimal notations with commas between them are a list of the numbers. -/
theorem lists_printed {a b c : Nat} (ha : 1 ≤ a ∧ a ≤ 2 ^ 64 - 1) (hb : 1 ≤ b ∧ b ≤ 2 ^ 64 - 1)
    (hc : 1 ≤ c ∧ c ≤ 2 ^ 64 - 1) : Lists s!"{a},{b},{c}" a b c := by
  refine ⟨toString a, toString b, toString c, .inl ?_, ⟨denotes_repr a, ha.1, ha.2⟩,
    ⟨denotes_repr b, hb.1, hb.2⟩, ⟨denotes_repr c, hc.1, hc.2⟩⟩
  rfl

/-- A list of thresholds is read just if it follows the grammar, as the numbers that it lists; any
other text is refused, for a numeral that fits no machine word only if there is one between its
commas, and else for a setting that is not valid. So the thresholds are read back from their decimal
notations. -/
theorem ofText_grammar (text : String) :
    (∀ a b c, (∃ t, ofText text = .ok t ∧ t.counts = #v[a, b, c]) ↔ Lists text a b c) ∧
      ((∀ a b c, ¬ Lists text a b c) → ∃ fault, ofText text = .error fault ∧
        ((fault = .numeralOverflow ∧
            ∃ item ∈ text.toList.splitOn ',', ∃ n, 2 ^ 64 ≤ n ∧ Denotes (String.ofList item) n) ∨
          ∃ cause, fault = .invalidConfiguration cause)) ∧
      ∀ t : Thresholds, (∀ g, t.get g ≤ 2 ^ 64 - 1) →
        ofText s!"{t.get 0},{t.get 1},{t.get 2}" = .ok t := by
  refine ⟨fun a b c => lists_iff.symm, ?_, ?_⟩
  · intro other
    cases read : ofText text with
    | ok t => exact absurd (lists_iff.mpr ⟨t, read, t.counts.eta⟩) (other _ _ _)
    | error fault =>
      refine ⟨fault, rfl, ?_⟩
      rcases fault_of_ofText read with ⟨overflow, item, mem, n, large, denotes⟩ | invalid
      · obtain ⟨piece, cut, rfl⟩ := List.mem_map.mp mem
        have between := (pieces_prefix_splitOn ',' text.toList).subset cut
        exact .inl ⟨overflow, piece, between, n, large, denotes⟩
      · exact .inr invalid
  · intro t fits
    obtain ⟨t', read, same⟩ := lists_iff.mp (lists_printed ⟨t.positive 0, fits 0⟩
      ⟨t.positive 1, fits 1⟩ ⟨t.positive 2, fits 2⟩)
    rw [eq_of_counts (same.trans t.counts.eta.symm)] at read
    exact read

/-- Two numerals, the second of which fits no machine word, are no list of thresholds; the default
thresholds are read back. -/
theorem ofText_overflow :
    (∀ a b c, ¬ Lists "007,18446744073709551616" a b c) ∧
      (∃ fault, ofText "007,18446744073709551616" = .error fault ∧
        ((fault = .numeralOverflow ∧
            ∃ item ∈ "007,18446744073709551616".toList.splitOn ',',
              ∃ n, 2 ^ 64 ≤ n ∧ Denotes (String.ofList item) n) ∨
          ∃ cause, fault = .invalidConfiguration cause)) ∧
      ofText "700,10,10" = .ok ⟨defaultThresholds, by decide⟩ := by
  obtain ⟨accepts, refuses, -⟩ := ofText_grammar "007,18446744073709551616"
  have refused : (ofText "007,18446744073709551616").toBool = false := by decide +kernel
  have other : ∀ a b c, ¬ Lists "007,18446744073709551616" a b c := by
    intro a b c lists
    obtain ⟨t, read, -⟩ := (accepts a b c).mpr lists
    simp [read, Except.toBool] at refused
  refine ⟨other, refuses other, ?_⟩
  have read := (ofText_grammar "").2.2 ⟨defaultThresholds, by decide⟩ (by decide)
  refine (congrArg ofText ?_).trans read
  decide +kernel

end Thresholds

end Reclaim
