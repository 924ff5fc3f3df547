import Reclaim.Proofs.Numerals
import Reclaim.Proofs.ShellCollections

/-!
# Numerals as arguments

The numerals of a line may have any length; what denotes no machine word is refused. The number that
was last collected is compared with the whole machine word that is expected
(`Shell.Sound.expectCollected_decides`), and a collection is asked for by the whole word as well
(`Shell.Sound.collect_numeral`). The generation of an object is compared with the low 32 bits of the
word only, as a signed number (`Shell.Sound.expectTracked_decides`).
-/

set_option autoImplicit false

namespace Reclaim

open Machine Text

/-- A numeral is read if it denotes a machine word. -/
theorem Command.readCount_of_denotes {text : String} {n : Nat} (denotes : Denotes text n)
    (line : Int) : readCount line text =
      if n < 2 ^ 64 then .ok n else .error (.command (.numeralRange text) line) := by
  have read := numeral?_eq_some_iff.mpr denotes
  simp only [readCount, read]
  rfl

/-- A generation is read by its number, and no other number is read as one. -/
theorem Command.readGeneration_of_denotes {text : String} {n : Nat} (denotes : Denotes text n)
    (line : Int) : (∀ g : Generation, g.val = n → readGeneration line text = .ok g) ∧
      (2 < n → ∃ cause, readGeneration line text = .error (.command cause line)) := by
  rw [readGeneration, readCount_of_denotes denotes]
  constructor
  · rintro g rfl
    have fits : g.val < 2 ^ 64 := by omega
    simp only [if_pos fits, Bind.bind, Except.bind, Generation.ofInt?_val]
    rfl
  · intro large
    have invalid : Generation.ofInt? n = none := Generation.ofInt?_eq_none.mpr (by omega)
    by_cases fits : n < 2 ^ 64
    · simp only [if_pos fits, Bind.bind, Except.bind, invalid]
      exact ⟨.generationRange, rfl⟩
    · simp only [if_neg fits, Bind.bind, Except.bind]
      exact ⟨_, rfl⟩

namespace Shell

variable {sh : Shell} {text name numeral : String} {n : Nat} {x : ObjectId}

/-- The action succeeds just if something holds, and otherwise it is refused as a command. -/
def Decides (act : ShellAct Unit) (sh : Shell) (P : Prop) : Prop :=
  Ends act sh (fun _ _ => P) fun fault _ => ¬ P ∧ ∃ cause line, fault = .command cause line

theorem Decides.congr {act : ShellAct Unit} {P Q : Prop} (decides : Decides act sh P)
    (iff : P ↔ Q) : Decides act sh Q :=
  decides.mono (fun _ _ => iff.mp) fun _ _ refused => ⟨fun holds => refused.1 (iff.mpr holds),
    refused.2⟩

theorem decides_throw {P : Prop} (fails : ¬ P) (cause : CommandFault) (line : Int) :
    Decides (throw (.command cause line)) sh P :=
  ends_of_error rfl ⟨fails, cause, line, rfl⟩

theorem decides_expect {P : Prop} [Decidable P] (cause : CommandFault) (line : Int) (sh : Shell) :
    Decides (expect (decide P) cause line) sh P := by
  unfold expect
  split
  · next holds => exact ends_of_ok rfl (of_decide_eq_true holds)
  · next fails => exact decides_throw (fun holds => fails (decide_eq_true holds)) cause line

/-- A line with a numeral decides what its command does, and that the numeral denotes a machine
word. -/
theorem decides_execute {line : Int} {arguments : List String} {command : Nat → Command} {P : Prop}
    (words : Text.words text = name :: arguments)
    (parses : Command.ofWords line name arguments =
      Command.readCount line numeral >>= fun n => pure (command n))
    (denotes : Denotes numeral n) (decides : Decides (run line (command n)) (sh.opened text) P) :
    Decides (execute text line) sh (n < 2 ^ 64 ∧ P) := by
  rw [Command.readCount_of_denotes denotes] at parses
  by_cases fits : n < 2 ^ 64
  · rw [if_pos fits] at parses
    unfold Decides Ends at decides
    rw [← execute_of_command words parses] at decides
    exact Decides.congr decides (and_iff_right fits).symm
  · rw [if_neg fits] at parses
    exact ends_of_error (execute_of_fault words parses) ⟨fun both => fits both.1, _, line, rfl⟩

/-! ## Expectations -/

/-- A number is expected to be the one that was last collected. -/
theorem expectCollected_decides (sh : Shell)
    (words : Text.words text = ["expect-collected", numeral]) (denotes : Denotes numeral n)
    (line : Int) : Decides (execute text line) sh (n < 2 ^ 64 ∧ sh.lastCollected = n) := by
  refine decides_execute words rfl denotes ?_
  exact decides_expect _ line (sh.opened text)

/-- The generation of an object, and -1 for one that is not tracked. -/
def generationOf (sh : Shell) (x : ObjectId) : Int :=
  (sh.machine.memory.collector.bind (·.tracker.generationOf? x)).elim (-1) (·.val)

/-- It is a small number. -/
theorem generationOf_range (sh : Shell) (x : ObjectId) :
    -1 ≤ sh.generationOf x ∧ sh.generationOf x ≤ 2 := by
  unfold generationOf
  cases sh.machine.memory.collector.bind (·.tracker.generationOf? x) with
  | none => exact ⟨Int.le_refl _, by decide⟩
  | some g =>
    have := g.isLt
    simp only [Option.elim_some]
    omega

/-- The generation of the object that a name was last bound to is expected to be a number, as far as
the low 32 bits of both tell. -/
theorem Sound.expectTracked_decides (S : sh.Sound)
    (words : Text.words text = ["expect-tracked", name, numeral]) (denotes : Denotes numeral n)
    (known : sh.names[name]? = some x) (line : Int) :
    Decides (execute text line) sh
      (n < 2 ^ 64 ∧ (n : Int) % 2 ^ 32 = sh.generationOf x % 2 ^ 32) := by
  refine decides_execute words rfl denotes ?_
  obtain ⟨c, hc⟩ := S.rests.present
  obtain ⟨lower, upper⟩ := sh.generationOf_range x
  have actual : sh.generationOf x = ((c.tracker.generationOf? x).elim (-1) (·.val) : Int) := by
    rw [generationOf, hc, Option.bind_some]
  have found : Ends (lookup name) (sh.opened text) (fun y sh' => y = x ∧ sh' = sh.opened text)
      fun _ _ => False := by
    refine (lookup_ends name (sh.opened text)).mono ?_ ?_
    · rintro y sh' ⟨rfl, bound⟩
      exact ⟨Option.some.inj (bound.symm.trans known), rfl⟩
    · rintro e sh' ⟨-, none, -⟩
      cases none.symm.trans known
  refine found.bind ?_ fun _ _ => False.elim
  rintro y sh' ⟨rfl, rfl⟩
  have watched : Ends (quietly Act.collector) (sh.opened text)
      (fun c' sh' => c' = c ∧ sh' = sh.opened text) fun _ _ => False :=
    ends_of_ok (quietly_of_ok (Act.collector_of_some hc)) ⟨rfl, rfl⟩
  refine watched.bind ?_ fun _ _ => False.elim
  rintro c' sh' ⟨rfl, rfl⟩
  refine Decides.congr (decides_expect _ line _) ?_
  rw [← actual, eq_comm]
  exact narrow_eq_iff (by omega) (by omega)

/-! ## Collections -/

/-- A collection that is asked for by a number is one of the generation that has it; no other number
is accepted. -/
theorem Sound.collect_numeral (S : sh.Sound) (words : Text.words text = ["collect", numeral])
    (denotes : Denotes numeral n) (line : Int) :
    (∀ g : Generation, g.val = n → ∃ (outcome : PassOutcome) (m : Machine),
      m.memory.books? = sh.machine.memory.books?.map
        (·.add g outcome.collected outcome.resurrected.length) ∧
      (execute text line sh = .ok () ((sh.opened text).noted m outcome.collected) ∨
        execute text line sh =
          .error (.resurrectionDetected outcome.resurrected outcome.collected)
            { sh.opened text with machine := m })) ∧
    (2 < n → ∃ cause, execute text line sh = .error (.command cause line) (sh.opened text)) := by
  obtain ⟨reads, refuses⟩ := Command.readGeneration_of_denotes denotes line
  have parses : Command.ofWords line "collect" [numeral] =
      Command.readGeneration line numeral >>= fun g => pure (.collect (some g)) := rfl
  constructor
  · intro g named
    rw [reads g named] at parses
    have opened : (sh.opened text).Sound := ⟨S.rests.congr rfl, S.known⟩
    obtain ⟨outcome, m, -, books, ended⟩ := opened.collect line (some g)
    rw [← execute_of_command words parses] at ended
    exact ⟨outcome, m, books, ended⟩
  · intro large
    obtain ⟨cause, refused⟩ := refuses large
    rw [refused] at parses
    exact ⟨cause, execute_of_fault words parses⟩

/-- A container that has just been allocated is in generation 0. It is taken to be in generation
4294967296 as well, whose low bits are the same; an untracked object in generation 4294967295. -/
example :
    let sh := (fresh.runScript "new a container\nnew b atom").2
    (sh.runLine "expect-tracked a 0").1 = true ∧
      (sh.runLine "expect-tracked a 4294967296").1 = true ∧
      (sh.runLine "expect-tracked b 4294967295").1 = true := by
  decide +kernel

end Shell

end Reclaim
