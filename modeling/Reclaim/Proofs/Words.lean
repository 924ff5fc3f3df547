import Mathlib.Data.List.Basic
import Reclaim.Text.Words

/-!
# Laying words out

A line lays words out: white space, then each word with the white space behind it, which may be
empty behind the last word only, and perhaps a comment at the end (`Text.Layout`). Reading the line
gives back exactly these words (`Text.Layout.words_text`). Every line is such a layout
(`Text.Layout.exists_text`), so what is read from a line are words, and they are read again when
they are written with single spaces between them (`Text.words_layout`).
-/

set_option autoImplicit false

namespace Reclaim.Text

/-- The space, the tab, the line feed, the vertical tab, the form feed and the carriage return. -/
def whiteSpace : List Char := [' ', '\t', '\n', '\x0b', '\x0c', '\r']

/-- The characters can stand as a word: there are some, and white space and number signs are not
among them. -/
structure IsWord (w : List Char) : Prop where
  nonempty : w ≠ []
  visible : ∀ c ∈ w, c ∉ whiteSpace
  unsigned : '#' ∉ w

/-- The characters are white space. -/
def Blank (gap : List Char) : Prop := ∀ c ∈ gap, c ∈ whiteSpace

instance (w : List Char) : Decidable (IsWord w) :=
  decidable_of_iff (w.isEmpty = false ∧ w.all (!whiteSpace.contains ·) = true ∧
      w.contains '#' = false) <| by
    constructor
    · rintro ⟨nonempty, visible, unsigned⟩
      exact ⟨by simpa using nonempty, by simpa using visible, by simpa using unsigned⟩
    · rintro ⟨nonempty, visible, unsigned⟩
      exact ⟨by simpa using nonempty, by simpa using visible, by simpa using unsigned⟩

instance (gap : List Char) : Decidable (Blank gap) :=
  decidable_of_iff (gap.all whiteSpace.contains = true) (by simp [Blank])

/-- Words, each with the white space behind it. Only the last one may do without. -/
inductive Spaced : List (List Char × List Char) → Prop where
  | nil : Spaced []
  | cons {w gap : List Char} {items : List (List Char × List Char)} :
      IsWord w → Blank gap → gap ≠ [] ∨ items = [] → Spaced items → Spaced ((w, gap) :: items)

/-- The characters begin with a number sign, if there are any. -/
def IsComment : List Char → Prop
  | [] => True
  | c :: _ => c = '#'

/-- Words, each with what stands behind it, one after the other. -/
def spread (items : List (List Char × List Char)) : List Char :=
  items.flatMap fun item => item.1 ++ item.2

/-- Words with white space around them, and perhaps a comment behind them. -/
structure Layout where
  /-- The white space in front of the words. -/
  margin : List Char
  items : List (List Char × List Char)
  comment : List Char
  blank : Blank margin
  spaced : Spaced items
  isComment : IsComment comment

namespace Layout

/-- The words that are laid out. -/
def words (l : Layout) : List String := l.items.map fun item => String.ofList item.1

/-- The line. -/
def text (l : Layout) : String := String.ofList (l.margin ++ spread l.items ++ l.comment)

end Layout

variable {c b : Char} {w gap cs rest comment : List Char} {items : List (List Char × List Char)}

theorem Spaced.isWord (spaced : Spaced items) : ∀ item ∈ items, IsWord item.1 := by
  induction spaced with
  | nil => simp
  | cons word _ _ _ ih => exact List.forall_mem_cons.mpr ⟨word, ih⟩

/-! ## Reading stretches -/

theorem isBlank_iff : isBlank c = true ↔ c ∈ whiteSpace := by
  simp only [isBlank, whiteSpace, Bool.or_eq_true, decide_eq_true_eq, Bool.and_eq_true,
    List.mem_cons, List.not_mem_nil, or_false, ← Char.toNat_inj]
  show c.toNat = 32 ∨ 9 ≤ c.toNat ∧ c.toNat ≤ 13 ↔ c.toNat = 32 ∨ c.toNat = 9 ∨ c.toNat = 10 ∨
    c.toNat = 11 ∨ c.toNat = 12 ∨ c.toNat = 13
  omega

theorem isBlank_eq_false_iff : isBlank c = false ↔ c ∉ whiteSpace := by
  rw [← isBlank_iff, Bool.not_eq_true]

theorem stretches_cons_of_blank (blank : b ∈ whiteSpace) :
    stretches (b :: cs) = stretches cs := by
  simp [stretches, isBlank_iff.mpr blank]

theorem stretches_append_of_blank (blank : Blank gap) (cs : List Char) :
    stretches (gap ++ cs) = stretches cs := by
  induction gap with
  | nil => rfl
  | cons b gap ih =>
    obtain ⟨here, behind⟩ := List.forall_mem_cons.mp blank
    rw [List.cons_append, stretches_cons_of_blank here]
    exact ih behind

/-- A character in front of white space is a stretch. -/
theorem stretches_cons_cons_of_blank (visible : c ∉ whiteSpace) (blank : b ∈ whiteSpace) :
    stretches (c :: b :: cs) = [c] :: stretches cs := by
  have behind := @stretches_cons_of_blank b cs blank
  rw [stretches.eq_def]
  simp only [isBlank_eq_false_iff.mpr visible, Bool.false_eq_true, if_false, behind]
  cases stretches cs with
  | nil => rfl
  | cons stretch more => simp [isBlank_iff.mpr blank]

/-- A character in front of a stretch belongs to it. -/
theorem stretches_cons_cons {d : Char} {stretch : List Char} {more : List (List Char)}
    (visible : c ∉ whiteSpace) (next : d ∉ whiteSpace)
    (first : stretches (d :: cs) = stretch :: more) :
    stretches (c :: d :: cs) = (c :: stretch) :: more := by
  rw [stretches.eq_def]
  simp [isBlank_eq_false_iff.mpr visible, isBlank_eq_false_iff.mpr next, first]

/-- A word is the first stretch if white space follows it or the text ends with it. -/
theorem stretches_append (nonempty : w ≠ []) (visible : ∀ c ∈ w, c ∉ whiteSpace)
    (blank : Blank gap) (ends : gap ≠ [] ∨ rest = []) :
    stretches (w ++ (gap ++ rest)) = w :: stretches rest := by
  induction w with
  | nil => exact absurd rfl nonempty
  | cons c w ih =>
    obtain ⟨first, others⟩ := List.forall_mem_cons.mp visible
    cases w with
    | nil =>
      cases gap with
      | nil =>
        obtain rfl := ends.resolve_left (absurd rfl)
        simp [stretches, isBlank_eq_false_iff.mpr first]
      | cons b gap =>
        obtain ⟨here, behind⟩ := List.forall_mem_cons.mp blank
        rw [List.singleton_append, List.cons_append, stretches_cons_cons_of_blank first here,
          stretches_append_of_blank behind]
    | cons d w =>
      apply stretches_cons_cons first (others d List.mem_cons_self)
      exact ih (List.cons_ne_nil d w) others

theorem Spaced.stretches_spread (spaced : Spaced items) :
    stretches (spread items) = items.map Prod.fst := by
  induction spaced with
  | nil => rfl
  | @cons w gap items word blank apart _ ih =>
    have ends : gap ≠ [] ∨ spread items = [] := by
      apply apart.imp_right
      rintro rfl
      rfl
    rw [spread, List.flatMap_cons, List.append_assoc, ← spread,
      stretches_append word.nonempty word.visible blank ends, ih]
    rfl

/-! ## Reading in front of the comment -/

theorem code_append (unsigned : '#' ∉ cs) (isComment : IsComment comment) :
    code (cs ++ comment) = cs := by
  have all : ∀ c ∈ cs, (c != '#') = true := by
    intro c mem
    simp only [bne_iff_ne, ne_eq]
    rintro rfl
    exact unsigned mem
  rw [code, List.takeWhile_append_of_pos all]
  cases comment with
  | nil => simp
  | cons c comment =>
    cases isComment
    simp

theorem Blank.unsigned (blank : Blank gap) : '#' ∉ gap := by
  intro mem
  have sign := blank '#' mem
  simp [whiteSpace] at sign

theorem Spaced.unsigned (spaced : Spaced items) : '#' ∉ spread items := by
  induction spaced with
  | nil => exact List.not_mem_nil
  | cons word blank _ _ ih =>
    rw [spread, List.flatMap_cons, ← spread]
    simp [word.unsigned, blank.unsigned, ih]

/-- What stands in front of the first number sign, and the comment behind it. -/
theorem exists_code (cs : List Char) :
    ∃ comment, cs = code cs ++ comment ∧ '#' ∉ code cs ∧ IsComment comment := by
  induction cs with
  | nil => exact ⟨[], rfl, List.not_mem_nil, trivial⟩
  | cons c cs ih =>
    by_cases sign : c = '#'
    · subst sign
      exact ⟨'#' :: cs, rfl, List.not_mem_nil, rfl⟩
    · obtain ⟨comment, split, unsigned, isComment⟩ := ih
      have here : code (c :: cs) = c :: code cs := by simp [code, sign]
      refine ⟨comment, ?_, ?_, isComment⟩
      · rw [here, List.cons_append, ← split]
      · simp [here, Ne.symm sign, unsigned]

/-! ## Every line is a layout -/

/-- Characters without number signs are white space and words with white space behind them. -/
theorem exists_spread (unsigned : '#' ∉ cs) :
    ∃ margin items, cs = margin ++ spread items ∧ Blank margin ∧ Spaced items := by
  induction cs with
  | nil => exact ⟨[], [], rfl, by simp [Blank], .nil⟩
  | cons c cs ih =>
    rw [List.mem_cons, not_or] at unsigned
    obtain ⟨margin, items, rfl, blank, spaced⟩ := ih unsigned.2
    rcases Classical.em (c ∈ whiteSpace) with white | visible
    · exact ⟨c :: margin, items, rfl, List.forall_mem_cons.mpr ⟨white, blank⟩, spaced⟩
    · have alone : IsWord [c] := ⟨by simp, by simp [visible], by simp [unsigned.1]⟩
      -- what the character is in front of decides whether it is a word of its own
      cases margin with
      | cons b margin =>
        exact ⟨[], ([c], b :: margin) :: items, rfl, by simp [Blank],
          .cons alone blank (.inl (List.cons_ne_nil b margin)) spaced⟩
      | nil =>
        cases spaced with
        | nil => exact ⟨[], [([c], [])], rfl, by simp [Blank], .cons alone blank (.inr rfl) .nil⟩
        | @cons w gap items word behind apart spaced =>
          have longer : IsWord (c :: w) := by
            constructor
            · exact List.cons_ne_nil c w
            · exact List.forall_mem_cons.mpr ⟨visible, word.visible⟩
            · simp [unsigned.1, word.unsigned]
          exact ⟨[], (c :: w, gap) :: items, rfl, blank, .cons longer behind apart spaced⟩

namespace Layout

/-- The words of a line are those that it lays out. -/
theorem words_text (l : Layout) : Text.words l.text = l.words := by
  have unsigned : '#' ∉ l.margin ++ spread l.items := by
    simp [l.blank.unsigned, l.spaced.unsigned]
  rw [Text.words, text, String.toList_ofList, code_append unsigned l.isComment,
    stretches_append_of_blank l.blank, l.spaced.stretches_spread, List.map_map]
  rfl

/-- Every line lays words out. -/
theorem exists_text (line : String) : ∃ l : Layout, l.text = line := by
  obtain ⟨comment, split, unsigned, isComment⟩ := exists_code line.toList
  obtain ⟨margin, items, body, blank, spaced⟩ := exists_spread unsigned
  refine ⟨⟨margin, items, comment, blank, spaced, isComment⟩, ?_⟩
  rw [text, ← body, ← split, String.ofList_toList]

end Layout

/-- What is read from a line are words. -/
theorem isWord_of_mem_words {line word : String} (mem : word ∈ words line) :
    IsWord word.toList := by
  obtain ⟨l, rfl⟩ := Layout.exists_text line
  rw [l.words_text] at mem
  obtain ⟨item, laid, rfl⟩ := List.mem_map.mp mem
  rw [String.toList_ofList]
  exact l.spaced.isWord item laid

/-! ## Single spaces -/

/-- Joining words with single spaces is one way to lay them out. -/
theorem exists_spaced {ws : List (List Char)} (isWord : ∀ w ∈ ws, IsWord w) :
    ∃ items, Spaced items ∧ spread items = [' '].intercalate ws ∧ items.map Prod.fst = ws := by
  induction ws with
  | nil => exact ⟨[], .nil, rfl, rfl⟩
  | cons w ws ih =>
    obtain ⟨word, others⟩ := List.forall_mem_cons.mp isWord
    obtain ⟨items, spaced, joined, rfl⟩ := ih others
    cases items with
    | nil =>
      refine ⟨[(w, [])], .cons word (by simp [Blank]) (.inr rfl) .nil, ?_, rfl⟩
      simp [spread]
    | cons next items =>
      have space : Blank [' '] := by simp [Blank, whiteSpace]
      refine ⟨(w, [' ']) :: next :: items, .cons word space (.inl (by simp)) spaced, ?_, rfl⟩
      rw [List.map_cons, List.intercalate_cons_cons, ← List.map_cons, ← joined]
      simp [spread]

/-- Words are read when they are written with single spaces between them. -/
theorem words_intercalate {ws : List String} (isWord : ∀ w ∈ ws, IsWord w.toList) :
    words (" ".intercalate ws) = ws := by
  obtain ⟨items, spaced, joined, same⟩ := exists_spaced (List.forall_mem_map.mpr isWord)
  let l : Layout := ⟨[], items, [], by simp [Blank], spaced, trivial⟩
  have text : l.text = " ".intercalate ws := by
    apply String.toList_inj.mp
    rw [String.toList_intercalate]
    simpa [Layout.text, l] using joined
  have words : l.words = ws := by
    have back := congrArg (List.map String.ofList) same
    simpa [Layout.words, l, Function.comp_def] using back
  rw [← text, l.words_text, words]

/-- Reading a line undoes laying words out, whatever white space stands around the words and
whatever comment behind them. What is read from any line are words, and they are read again when
they are written with single spaces between them. -/
theorem words_layout :
    (∀ l : Layout, words l.text = l.words) ∧
      ∀ line : String, (∀ word ∈ words line, IsWord word.toList) ∧
        words (" ".intercalate (words line)) = words line := by
  refine ⟨Layout.words_text, ?_⟩
  intro line
  have isWord : ∀ word ∈ words line, IsWord word.toList := by
    intro word mem
    exact isWord_of_mem_words mem
  exact ⟨isWord, words_intercalate isWord⟩

/-- A line whose words are parted by two spaces and by a carriage return, with a comment right
behind the last word, which ends in a NUL. -/
def remark : Layout where
  margin := ['\t']
  items := [(['l', 'i', 'n', 'k'], [' ', ' ']), (['a'], ['\r']), (['b', '\x00'], [])]
  comment := ['#', ' ', 'a', '#']
  blank := by decide
  spaced := .cons (by decide) (by decide) (.inl (by decide)) (.cons (by decide) (by decide)
    (.inl (by decide)) (.cons (by decide) (by decide) (.inr rfl) .nil))
  isComment := rfl

theorem words_layout_remark :
    remark.text = "\tlink  a\rb\x00# a#" ∧ words remark.text = ["link", "a", "b\x00"] ∧
      (∀ word ∈ words remark.text, IsWord word.toList) ∧
      words (" ".intercalate (words remark.text)) = ["link", "a", "b\x00"] := by
  obtain ⟨reads, again⟩ := words_layout
  obtain ⟨isWord, joined⟩ := again remark.text
  have laid : remark.words = ["link", "a", "b\x00"] := by decide +kernel
  have read : words remark.text = ["link", "a", "b\x00"] := (reads remark).trans laid
  exact ⟨by decide +kernel, read, isWord, joined.trans read⟩

end Reclaim.Text
