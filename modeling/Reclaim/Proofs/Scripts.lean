import Reclaim.Proofs.Items
import Reclaim.Proofs.Numbering

/-!
# Scripts

Every line of a script works, or it fails with a fault that the shell catches and reports under the
number of the line (`Shell.works_or_fails`). A script passes if all its lines work, and else it stops
at the first one that fails (`Shell.passes_or_stopsAt`); the lines behind it are not executed
(`Shell.StopsAt.of_take`). So a text that is empty or ends in a line feed can be run by itself, and
what comes behind it afterwards, if no line has failed; only the numbers of lines start again
(`Shell.Attained.scripts_compose`).
-/

set_option autoImplicit false

namespace Reclaim

/-- The fault belongs to the refusals of commands, or to those of the heap and its collector. A shell
catches these two families and no others. -/
def Fault.isCaught : Fault → Bool
  | .command _ _ => true
  | .invalidReference _ _ => true
  | .invalidConfiguration _ => true
  | .reentrantCollection => true
  | .resurrectionDetected _ _ => true
  | .inconsistentCount _ => true
  | .numeralOverflow => false
  | .thrown _ => false
  | .collectorMissing => false

theorem Fault.Unnumbered.isCaught {fault : Fault} (unnumbered : fault.Unnumbered) :
    fault.isCaught = true := by
  cases unnumbered <;> rfl

theorem Fault.Unnumbered.faultLine_eq {fault : Fault} (unnumbered : fault.Unnumbered)
    (line : Int) : Shell.faultLine line fault = line := by
  cases unnumbered <;> rfl

namespace Shell

variable {sh sh' sh'' stopped : Shell} {text words : String} {texts rest : List String} {k : Nat}

/-! ## Lines -/

/-- Under any number the line succeeds. -/
def Works (sh : Shell) (text : String) (sh' : Shell) : Prop :=
  ∀ line : Int, execute text line sh = .ok () sh'

/-- Under any number the line fails. The fault is caught, and it is reported in these words under
that number. -/
def Fails (sh : Shell) (text words : String) (sh' : Shell) : Prop :=
  ∀ line : Int, ∃ fault, execute text line sh = .error fault sh' ∧ fault.isCaught = true ∧
    faultText fault = words ∧ faultLine line fault = line

/-- Between the lines of a session, a line does one or the other. -/
theorem works_or_fails (S : sh.Sound) (text : String) :
    (∃ sh', sh'.Sound ∧ Works sh text sh') ∨ ∃ words sh', Fails sh text words sh' := by
  cases uniform_execute text sh S with
  | @succeeds sh' a S' ends => exact .inl ⟨sh', S', ends⟩
  | @blames sh' cause ends =>
    refine .inr ⟨cause.detail, sh', fun line => ⟨_, ends line, rfl, rfl, ?_⟩⟩
    exact ite_self line
  | @refuses sh' fault un ends =>
    refine .inr ⟨faultText fault, sh', fun line => ⟨fault, ends line, un.isCaught, rfl, ?_⟩⟩
    exact un.faultLine_eq line

/-! ## Lists of lines -/

/-- All the lines work, one after the other. -/
inductive Passes : Shell → List String → Shell → Prop
  | nil (sh : Shell) : Passes sh [] sh
  | cons {sh sh' sh'' : Shell} {text : String} {rest : List String} :
      Works sh text sh' → Passes sh' rest sh'' → Passes sh (text :: rest) sh''

/-- The first `k` lines work, and the next one fails. -/
inductive StopsAt : Shell → List String → Nat → String → Shell → Prop
  | here {sh stopped : Shell} {text words : String} (rest : List String) :
      Fails sh text words stopped → StopsAt sh (text :: rest) 0 words stopped
  | later {sh sh' stopped : Shell} {text words : String} {rest : List String} {k : Nat} :
      Works sh text sh' → StopsAt sh' rest k words stopped →
        StopsAt sh (text :: rest) (k + 1) words stopped

theorem passes_or_stopsAt (S : sh.Sound) (texts : List String) :
    (∃ sh', Passes sh texts sh') ∨ ∃ k words stopped, StopsAt sh texts k words stopped := by
  induction texts generalizing sh with
  | nil => exact .inl ⟨sh, .nil sh⟩
  | cons text rest ih =>
    rcases works_or_fails S text with ⟨sh', S', works⟩ | ⟨words, stopped, fails⟩
    · rcases ih S' with ⟨sh'', passes⟩ | ⟨k, words, stopped, stops⟩
      · exact .inl ⟨sh'', .cons works passes⟩
      · exact .inr ⟨k + 1, words, stopped, .later works stops⟩
    · exact .inr ⟨0, words, stopped, .here rest fails⟩

/-- Lines that pass are run to their end. -/
theorem Passes.runLines_eq (passes : Passes sh texts sh') (line : Nat) :
    sh.runLines line texts = (true, sh') := by
  induction passes generalizing line with
  | nil => rfl
  | cons works _ ih =>
    rw [runLines, works]
    exact ih (line + 1)

/-- Otherwise the first line that fails is reported under its number. -/
theorem StopsAt.runLines_eq (stops : StopsAt sh texts k words stopped) (line : Nat) :
    sh.runLines line texts = (false, stopped.post (.error words (line + k : Nat))) := by
  induction stops generalizing line with
  | here rest fails =>
    obtain ⟨fault, executed, -, said, numbered⟩ := fails line
    rw [runLines, executed]
    simp only [said, numbered, Nat.add_zero]
  | later works _ ih =>
    rw [runLines, works]
    simp only [ih (line + 1), Nat.add_right_comm line 1, ← Nat.add_assoc]

theorem Passes.append (first : Passes sh texts sh') (second : Passes sh' rest sh'') :
    Passes sh (texts ++ rest) sh'' := by
  induction first with
  | nil => exact second
  | cons works _ ih => exact .cons works (ih second)

/-- Lines behind a stop do not matter. -/
theorem StopsAt.append (stops : StopsAt sh texts k words stopped) (rest : List String) :
    StopsAt sh (texts ++ rest) k words stopped := by
  induction stops with
  | here _ fails => exact .here _ fails
  | later works _ ih => exact .later works ih

/-- A stop behind lines that pass comes later by their number. -/
theorem Passes.stopsAt (first : Passes sh texts sh') (stops : StopsAt sh' rest k words stopped) :
    StopsAt sh (texts ++ rest) (texts.length + k) words stopped := by
  induction first with
  | nil =>
    rw [List.length_nil, Nat.zero_add]
    exact stops
  | cons works _ ih =>
    rw [List.length_cons, Nat.add_right_comm]
    exact .later works (ih stops)

/-- Where lines stop depends on the lines up to there only. -/
theorem StopsAt.of_take {texts' : List String} (stops : StopsAt sh texts k words stopped)
    (same : texts'.take (k + 1) = texts.take (k + 1)) : StopsAt sh texts' k words stopped := by
  induction stops generalizing texts' with
  | here rest fails =>
    cases texts' with
    | nil => cases same
    | cons text' rest' =>
      obtain ⟨rfl, -⟩ := List.cons.inj same
      exact .here rest' fails
  | later works _ ih =>
    cases texts' with
    | nil => cases same
    | cons text' rest' =>
      obtain ⟨rfl, behind⟩ := List.cons.inj same
      exact .later works (ih behind)

/-! ## Scripts -/

theorem Passes.runScript_eq {source : String} (passes : Passes sh (Text.lines source) sh') :
    sh.runScript source = (true, sh') :=
  passes.runLines_eq 1

theorem StopsAt.runScript_eq {source : String}
    (stops : StopsAt sh (Text.lines source) k words stopped) :
    sh.runScript source = (false, stopped.post (.error words (k + 1 : Nat))) := by
  rw [runScript, stops.runLines_eq 1, Nat.add_comm]

/-- A script is run, and if it succeeds another one. -/
def runBoth (sh : Shell) (s t : String) : Bool × Shell :=
  match sh.runScript s with
  | (true, sh') => sh'.runScript t
  | (false, sh') => (false, sh')

/-- The shell when nothing has been said about errors. -/
def unreported (sh : Shell) : Shell := { sh with machine.console.err := "" }

theorem errorText_of_line (words : String) (line : Nat) :
    errorText words line ++ "\n" = s!"[line {line}] Error: {words}\n" := by
  rw [errorText, if_pos (Int.natCast_nonneg line)]
  simp only [String.append_assoc]
  rfl

/-- A failure is reported on the error stream, and nothing else changes. -/
theorem post_error (sh : Shell) (words : String) (line : Nat) :
    sh.post (.error words line) = { sh with
      machine.console.err := sh.machine.console.err ++ s!"[line {line}] Error: {words}\n" } := by
  rw [← errorText_of_line]
  rfl

@[simp] theorem unreported_post (sh : Shell) (words : String) (line : Int) :
    (sh.post (.error words line)).unreported = sh.unreported := rfl

section Append

variable {s t : String}

/-- The lines of a text that ends where its last line does come before those of what is behind it. -/
theorem lines_append (ended : Text.Ended '\n' s.toList) (t : String) :
    Text.lines (s ++ t) = Text.lines s ++ Text.lines t :=
  Text.items_append ended t

/-- What stops the second of two texts stops both, later by the number of lines of the first one. -/
theorem Passes.stopsAt_lines (ended : Text.Ended '\n' s.toList)
    (passed : Passes sh (Text.lines s) sh') (stops : StopsAt sh' (Text.lines t) k words stopped) :
    StopsAt sh (Text.lines (s ++ t)) (s.toList.count '\n' + k) words stopped := by
  have length : (Text.lines s).length = s.toList.count '\n' := Text.length_items ended
  rw [lines_append ended, ← length]
  exact passed.stopsAt stops

/-- Two texts are run as a script is that consists of both, unless a line of the second one stops
it. -/
theorem Attained.runScript_append (run : Attained sh) (ended : Text.Ended '\n' s.toList)
    (t : String) : sh.runScript (s ++ t) = sh.runBoth s t ∨
      ∃ sh₁ k words stopped, sh.runScript s = (true, sh₁) ∧
        StopsAt sh₁ (Text.lines t) k words stopped ∧
          StopsAt sh (Text.lines (s ++ t)) (s.toList.count '\n' + k) words stopped := by
  rcases passes_or_stopsAt run.sound (Text.lines s) with
    ⟨sh₁, passed⟩ | ⟨k, words, stopped, stops⟩
  · have S₁ : sh₁.Sound := by
      have after := (run.runScript s).sound
      rwa [passed.runScript_eq] at after
    rcases passes_or_stopsAt S₁ (Text.lines t) with ⟨sh₂, passes⟩ | ⟨k, words, stopped, stops⟩
    · left
      have all : Passes sh (Text.lines (s ++ t)) sh₂ :=
        lines_append ended t ▸ passed.append passes
      rw [all.runScript_eq, runBoth, passed.runScript_eq]
      exact passes.runScript_eq.symm
    · right
      exact ⟨sh₁, k, words, stopped, passed.runScript_eq, stops, passed.stopsAt_lines ended stops⟩
  · left
    have all : StopsAt sh (Text.lines (s ++ t)) k words stopped :=
      lines_append ended t ▸ stops.append _
    rw [all.runScript_eq, runBoth, stops.runScript_eq]

end Append

/-- Scripts compose line by line. If a text is empty or ends in a line feed, then running it with
another one behind it gives the same answer as running the one and, if it succeeds, the other, and
leaves the same shell; only if a line of the other text stops it, that line is reported under its
number there and the number of lines before. Every script passes, or it stops at its first line that
fails, with a fault that is caught; that line is reported on the error stream, with its number
counted from one, and nothing else is added. The lines behind it have no effect. -/
theorem Attained.scripts_compose (run : Attained sh) {s : String}
    (closed : s = "" ∨ ∃ u, s = u ++ "\n") (t : String) :
    (sh.runScript (s ++ t)).1 = (sh.runBoth s t).1 ∧
      (sh.runScript (s ++ t)).2.unreported = (sh.runBoth s t).2.unreported ∧
      (sh.runScript (s ++ t) = sh.runBoth s t ∨
        ∃ sh₁ k words stopped, sh.runScript s = (true, sh₁) ∧
          StopsAt sh₁ (Text.lines t) k words stopped ∧
            StopsAt sh (Text.lines (s ++ t)) (s.toList.count '\n' + k) words stopped) ∧
      (∀ source, (∃ sh', Passes sh (Text.lines source) sh' ∧ sh.runScript source = (true, sh')) ∨
        ∃ k words stopped, StopsAt sh (Text.lines source) k words stopped ∧
          sh.runScript source = (false, { stopped with
            machine.console.err := stopped.machine.console.err ++
              s!"[line {k + 1}] Error: {words}\n" })) ∧
      ∀ source source' k words stopped, StopsAt sh (Text.lines source) k words stopped →
        (Text.lines source').take (k + 1) = (Text.lines source).take (k + 1) →
          sh.runScript source' = sh.runScript source := by
  have appended := run.runScript_append (@Text.ended_toList '\n' s closed) t
  have same : (sh.runScript (s ++ t)).1 = (sh.runBoth s t).1 ∧
      (sh.runScript (s ++ t)).2.unreported = (sh.runBoth s t).2.unreported := by
    rcases appended with whole | ⟨sh₁, k, words, stopped, succeeded, stops, later⟩
    · rw [whole]
      exact ⟨rfl, rfl⟩
    · rw [later.runScript_eq, runBoth, succeeded]
      simp only [stops.runScript_eq, unreported_post, and_self]
  refine ⟨same.1, same.2, appended, fun source => ?_, ?_⟩
  · rcases passes_or_stopsAt run.sound (Text.lines source) with
      ⟨sh', passes⟩ | ⟨k, words, stopped, stops⟩
    · exact .inl ⟨sh', passes, passes.runScript_eq⟩
    · exact .inr ⟨k, words, stopped, stops, post_error stopped words (k + 1) ▸ stops.runScript_eq⟩
  · intro source source' k words stopped stops same
    rw [(stops.of_take same).runScript_eq, stops.runScript_eq]

/-- The line that expects a new container to be dead is the third one of both texts, and the second
one of the text that it belongs to. -/
theorem scripts_compose_estate :
    (estate.runScript ("new d container\n" ++ "# too early\nexpect d dead")).1 =
        (estate.runBoth "new d container\n" "# too early\nexpect d dead").1 ∧
      (estate.runScript ("new d container\n" ++ "# too early\nexpect d dead")).2.unreported =
        (estate.runBoth "new d container\n" "# too early\nexpect d dead").2.unreported ∧
      (estate.runScript ("new d container\n" ++ "# too early\nexpect d dead")
        ).2.machine.console.err = "[line 3] Error: expected d to be dead\n" ∧
      (estate.runBoth "new d container\n" "# too early\nexpect d dead").2.machine.console.err =
        "[line 2] Error: expected d to be dead\n" := by
  have closed : "new d container\n" = "new d container" ++ "\n" := by decide +kernel
  obtain ⟨answer, shell, -⟩ :=
    attained_estate.scripts_compose (.inr ⟨_, closed⟩) "# too early\nexpect d dead"
  refine ⟨answer, shell, ?_⟩
  decide +kernel

end Shell

end Reclaim
