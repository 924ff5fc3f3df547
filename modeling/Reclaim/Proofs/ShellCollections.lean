import Reclaim.Proofs.Outcomes
import Reclaim.Proofs.Sessions

/-!
# What a shell collects

A collect command runs one pass over the generation that it names, whose outcome is entered into the
books; then it notes what was collected, unless it is to report what was resurrected
(`Shell.Sound.collect`). No other command notes anything (`Shell.retains_run`). So what a session has
noted last is the growth of the total by the last of its collect commands that has returned
(`Shell.Attained.lastCollected_eq`). A pass that ends in a report is counted in the total, but it is
not noted.
-/

set_option autoImplicit false

namespace Reclaim

open Machine

/-! ## Passes of a shell -/

section

variable {own : Holdings} {s s' : Machine} {g : Generation} {c c' : Collector}

/-- A pass whose hooks only link is entered into the books as what it answers. -/
theorem Pass.LinkedCourse.books_eq {names : Finset ObjectId} {n : Nat}
    (k : LinkedCourse names n c g s) : k.ended.memory.books? =
      s.memory.books?.map (·.add g k.outcome.collected k.outcome.resurrected.length) := by
  obtain ⟨c', hc', booked⟩ := k.booked
  rw [booked, Memory.books?_book hc', k.collection.leads.conduct.books, k.opened_same, k.collected,
    k.resurrected]

/-- A collection of a shell runs one pass, over the generation that is asked for. -/
theorem Machine.Rests.collect (R : Rests own s) (g : Generation) :
    ∃ (outcome : PassOutcome) (s' : Machine), Rests own s' ∧
      s'.memory.books? =
        s.memory.books?.map (·.add g outcome.collected outcome.resurrected.length) ∧
      runWithin 0 (Host.collect · g.val) s =
        Host.verdict s'.memory.policy? outcome.collected outcome.resurrected s' := by
  obtain ⟨c, hc⟩ := R.present
  have H := R.holds (.ask .roots)
  obtain ⟨k, run, H'⟩ := H.run (linkScope_linked s _) hc g
  obtain ⟨c', hc'⟩ := H.exists_collector H' hc
  have books (collecting : Bool) (t : Machine) :
      (t.mapCollector ({ · with collecting })).memory.books? = t.memory.books? :=
    Option.map_map _ _ t.memory.collector
  refine ⟨k.outcome, _, R.of_holds H', ?_, ?_⟩
  · rw [books, k.books_eq, books]
  · exact Host.collect_eq_verdict hc (H.there.collecting_eq hc) (Generation.ofInt?_val g)
      (Hooks.outside_pass _) run hc'

/-- Containers reclaimed by all passes of the collector, if there is one. -/
def Memory.totalCollected (m : Memory) : Nat := m.collector.elim 0 (·.totalCollected)

theorem Books.total_add (B : Books) (g : Generation) (collected uncollectable : Nat) :
    (B.add g collected uncollectable).stats.total (·.collected) =
      B.stats.total (·.collected) + collected := by
  simp only [add, PerGeneration.total, PerGeneration.get_update]
  match g with
  | 0 | 1 | 2 =>
    simp only [Fin.isValue, Fin.reduceEq, zero_ne_one, one_ne_zero, if_true, if_false]
    omega

/-- The total grows by what is entered into the books. -/
theorem Memory.totalCollected_add {m m' : Memory} {collected uncollectable : Nat}
    (present : ∃ c, m.collector = some c)
    (books : m'.books? = m.books?.map (·.add g collected uncollectable)) :
    m'.totalCollected = m.totalCollected + collected := by
  obtain ⟨c, hc⟩ := present
  rw [Memory.books?, Memory.books?, hc, Option.map_some, Option.map_some,
    Option.map_eq_some_iff] at books
  obtain ⟨c', hc', books⟩ := books
  have total := Books.total_add c.books g collected uncollectable
  rw [← books] at total
  simp only [totalCollected, hc, hc', Option.elim_some]
  exact total

end

/-! ## Which lines collect -/

namespace Command

variable {line : Int} {name : String} {arguments : List String} {command : Command}

/-- Only lines with its name are read as a collect command. -/
theorem eq_of_ofWords_collect {generation : Option Generation}
    (parsed : ofWords line name arguments = .ok (.collect generation)) : name = "collect" := by
  unfold ofWords at parsed
  split at parsed
  -- other commands are made of what their arguments are read as
  all_goals first
    | rfl
    | cases parsed
    | obtain ⟨_, _, parsed⟩ := Heap.exists_of_bind parsed
      cases parsed
    | obtain ⟨_, _, parsed⟩ := Heap.exists_of_bind parsed
      obtain ⟨_, _, parsed⟩ := Heap.exists_of_bind parsed
      obtain ⟨_, _, parsed⟩ := Heap.exists_of_bind parsed
      cases parsed
    | split at parsed <;> cases parsed

/-- Lines with its name are read as nothing else. -/
theorem exists_of_ofWords_collect (parsed : ofWords line "collect" arguments = .ok command) :
    ∃ generation, command = .collect generation := by
  match arguments, parsed with
  | [], parsed =>
    cases parsed
    exact ⟨none, rfl⟩
  | [numeral], parsed =>
    obtain ⟨generation, -, parsed⟩ := Heap.exists_of_bind parsed
    cases parsed
    exact ⟨some generation, rfl⟩
  | _ :: _ :: _, parsed => cases parsed

end Command

namespace Shell

variable {sh sh' : Shell} {line : Int}

/-- A collect command runs one pass, over the generation that it names or else over all of them. It
succeeds and notes what was collected, or it reports what was resurrected and notes nothing. -/
theorem Sound.collect (S : sh.Sound) (line : Int) (generation : Option Generation) :
    ∃ (outcome : PassOutcome) (m : Machine), m.Rests sh.holdings ∧
      m.memory.books? = sh.machine.memory.books?.map
        (·.add (generation.getD .oldest) outcome.collected outcome.resurrected.length) ∧
      (run line (.collect generation) sh = .ok () (sh.noted m outcome.collected) ∨
        run line (.collect generation) sh =
          .error (.resurrectionDetected outcome.resurrected outcome.collected)
            { sh with machine := m }) := by
  obtain ⟨outcome, m, R, books, collected⟩ := S.rests.collect (generation.getD .oldest)
  refine ⟨outcome, m, R, books, ?_⟩
  rcases Host.verdict_cases m.memory.policy? outcome.collected outcome.resurrected m with
    done | reported
  · exact .inl (run_collect_of_ok (collected.trans done))
  · exact .inr (run_collect_of_error (collected.trans reported))

/-! ## What other commands note -/

section Retains

variable {α β : Type} {act : ShellAct α} {f : α → ShellAct β}

/-- Whatever its outcome, the action notes nothing. -/
def Retains (act : ShellAct α) : Prop := ∀ sh,
  Ends act sh (fun _ sh' => sh'.lastCollected = sh.lastCollected)
    fun _ sh' => sh'.lastCollected = sh.lastCollected

theorem retains_pure (a : α) : Retains (pure a) := fun _ => rfl

theorem retains_throw (e : Fault) : Retains (throw e : ShellAct α) := fun _ => rfl

theorem retains_get : Retains (get : ShellAct Shell) := fun _ => rfl

theorem Retains.bind (retains : Retains act) (next : ∀ a, Retains (f a)) :
    Retains (act >>= f) := by
  intro sh
  refine (retains sh).bind (fun a sh' same => ?_) fun _ _ => id
  exact (next a sh').mono (fun _ _ => (·.trans same)) fun _ _ => (·.trans same)

theorem retains_quietly (action : Act α) : Retains (quietly action) := by
  intro sh
  cases run : action sh.machine with
  | ok a m => exact ends_of_ok (quietly_of_ok run) rfl
  | error e m => exact ends_of_error (quietly_of_error run) rfl

theorem retains_print (text : String) : Retains (print text) := retains_quietly _

theorem retains_lookup (name : String) : Retains (lookup name) := by
  intro sh
  refine (lookup_ends name sh).mono ?_ ?_
  · rintro y sh' ⟨rfl, -⟩
    rfl
  · rintro e sh' ⟨rfl, -⟩
    rfl

theorem retains_expect (holds : Bool) (cause : CommandFault) (line : Int) :
    Retains (expect holds cause line) := by
  unfold expect
  split
  · exact retains_pure ()
  · exact retains_throw _

theorem retains_bindName (name : String) (y : ObjectId) : Retains (bindName name y) := by
  refine retains_get.bind fun sh => Retains.bind (fun _ => rfl) fun _ => ?_
  cases sh.bindings[name]? with
  | none => exact retains_pure ()
  | some old => exact retains_quietly _

theorem retains_unbindName (name : String) : Retains (unbindName name) := by
  refine retains_get.bind fun sh => ?_
  cases sh.bindings[name]? with
  | none => exact retains_throw _
  | some y => exact (retains_quietly _).bind fun _ _ => rfl

end Retains

/-- Only a collect command notes anything. -/
theorem retains_run (line : Int) {command : Command}
    (other : ∀ generation, command ≠ .collect generation) : Retains (run line command) := by
  cases command with
  | new name kind typeName => exact (retains_quietly _).bind fun _ => retains_bindName name _
  | bind name old =>
    exact (retains_lookup old).bind fun _ => (retains_quietly _).bind fun _ =>
      retains_bindName name _
  | del name => exact retains_unbindName name
  | link source target | unlink source target =>
    exact (retains_lookup target).bind fun _ => (retains_lookup source).bind fun _ =>
      retains_quietly _
  | finalizer name word =>
    refine (retains_lookup name).bind fun y => ?_
    match word with
    | .log => exact retains_quietly _
    | .resurrect none => exact retains_throw _
    | .resurrect (some holder) => exact (retains_lookup holder).bind fun _ => retains_quietly _
    | .unknown => exact retains_throw _
  | collect generation => exact absurd rfl (other generation)
  | enable | disable | threshold | debug | policy => exact retains_quietly _
  | describe name =>
    exact (retains_print _).bind fun _ => (retains_lookup name).bind fun _ =>
      (retains_quietly _).bind fun _ => retains_print _
  | tracked =>
    exact (retains_quietly _).bind fun _ => (retains_quietly _).bind fun _ => retains_print _
  | count | garbage => exact (retains_quietly _).bind fun _ => retains_print _
  | stats =>
    exact (retains_quietly _).bind fun _ => (retains_quietly _).bind fun _ =>
      (retains_print _).bind fun _ => retains_print _
  | clearGarbage =>
    exact (retains_print _).bind fun _ => (retains_quietly _).bind fun _ => retains_print _
  | expectCollected count => exact retains_get.bind fun _ => retains_expect _ _ _
  | expectTracked name written generation =>
    exact (retains_lookup name).bind fun _ => (retains_quietly _).bind fun _ => retains_expect _ _ _
  | expectLiveness name alive =>
    refine (retains_lookup name).bind fun _ => (retains_quietly _).bind fun h => ?_
    match alive with
    | some true => exact retains_expect _ _ _
    | some false => exact retains_expect _ _ _
    | none => exact retains_throw _

/-! ## Sessions -/

/-- Containers reclaimed by all passes of a session. -/
def totalCollected (sh : Shell) : Nat := sh.machine.memory.totalCollected

/-- The first word of a line is that of a collect command. -/
def asksToCollect (text : String) : Bool := (Text.words text).head? = some "collect"

/-- Other lines note nothing, nor do those that fail. -/
theorem retains_execute {text : String} (other : asksToCollect text = false) (line : Int) :
    Retains (execute text line) := by
  intro sh
  cases words : Text.words text with
  | nil => exact ends_of_ok (execute_of_blank words) rfl
  | cons name arguments =>
    cases parsed : Command.ofWords line name arguments with
    | error fault => exact ends_of_error (execute_of_fault words parsed) rfl
    | ok command =>
      have none (generation : Option Generation) : command ≠ .collect generation := by
        rintro rfl
        simp [asksToCollect, words, Command.eq_of_ofWords_collect parsed] at other
      have ends := retains_run line none (sh.opened text)
      unfold Ends at ends ⊢
      rwa [execute_of_command words parsed]

/-- A line that asks to collect has run a pass when it succeeds, and has noted by how much the total
has grown since. If its pass ends in a report of what was resurrected, the total has grown as well,
but nothing is noted. -/
theorem Sound.execute_collects (S : sh.Sound) {text : String} (asks : asksToCollect text = true)
    (line : Int) :
    Ends (execute text line) sh
      (fun _ sh' => sh'.totalCollected = sh.totalCollected + sh'.lastCollected)
      fun fault sh' => sh'.lastCollected = sh.lastCollected ∧
        ((∃ ids collected, fault = .resurrectionDetected ids collected ∧
          sh'.totalCollected = sh.totalCollected + collected) ∨
          sh'.totalCollected = sh.totalCollected) := by
  cases words : Text.words text with
  | nil => simp [asksToCollect, words] at asks
  | cons name arguments =>
    cases parsed : Command.ofWords line name arguments with
    | error fault => exact ends_of_error (execute_of_fault words parsed) ⟨rfl, .inr rfl⟩
    | ok command =>
      have named : name = "collect" := by simpa [asksToCollect, words] using asks
      subst named
      obtain ⟨generation, rfl⟩ := Command.exists_of_ofWords_collect parsed
      have opened : (sh.opened text).Sound := ⟨S.rests.congr rfl, S.known⟩
      obtain ⟨outcome, m, -, books, ended⟩ := opened.collect line generation
      have total : m.memory.totalCollected = sh.totalCollected + outcome.collected :=
        Memory.totalCollected_add S.rests.present books
      have run := @execute_of_command sh _ _ line _ _ words parsed
      rcases ended with done | reported
      · exact ends_of_ok (run.trans done) total
      · exact ends_of_error (run.trans reported) ⟨rfl, .inl ⟨_, _, rfl, total⟩⟩

/-- The shell after lines that are executed one by one, whether they succeed or fail. -/
def runAll (sh : Shell) (texts : List String) : Shell :=
  texts.foldl (fun sh text => (sh.runLine text).2) sh

/-- By how much the total has grown in each of the collect commands that have returned. -/
def harvests (sh : Shell) : List String → List Nat
  | [] => []
  | text :: rest =>
      let sh' := (sh.runLine text).2
      if (sh.runLine text).1 && asksToCollect text then
        (sh'.totalCollected - sh.totalCollected) :: harvests sh' rest
      else
        harvests sh' rest

/-- What is noted after one line. -/
theorem Sound.runLine_notes (S : sh.Sound) (text : String) :
    (sh.runLine text).2.lastCollected =
      if (sh.runLine text).1 && asksToCollect text then
        (sh.runLine text).2.totalCollected - sh.totalCollected
      else sh.lastCollected := by
  unfold runLine
  cases asks : asksToCollect text with
  | false =>
    have ends := retains_execute asks (-1) sh
    unfold Ends at ends
    rw [Bool.and_false, if_neg Bool.false_ne_true]
    cases executed : execute text (-1) sh with
    | ok _ sh' | error _ sh' =>
      rw [executed] at ends
      exact ends
  | true =>
    have ends := S.execute_collects asks (-1)
    unfold Ends at ends
    rw [Bool.and_true]
    cases executed : execute text (-1) sh with
    | ok _ sh' =>
      rw [executed] at ends
      simp only [if_true]
      omega
    | error _ sh' =>
      rw [executed] at ends
      exact ends.1

/-- What a session has noted last. Whatever lines are executed one by one, the shell has noted by how
much the total has grown in the last of the collect commands that have returned, and what it had
noted before if none has. -/
theorem Attained.lastCollected_eq (run : Attained sh) (texts : List String) :
    (sh.runAll texts).lastCollected =
      (sh.harvests texts).getLast?.getD sh.lastCollected := by
  induction texts generalizing sh with
  | nil => rfl
  | cons text rest ih =>
    have noted := run.sound.runLine_notes text
    have later : (sh.runAll (text :: rest)).lastCollected =
        ((sh.runLine text).2.harvests rest).getLast?.getD (sh.runLine text).2.lastCollected :=
      ih (run.runLine text)
    rw [later, noted, harvests]
    split
    · rw [List.getLast?_cons, Option.getD_some]
    · rfl

/-- A session in which a finalizer brings back one of two unreachable containers. The pass frees the
other one and reports what came back, so the total has grown by one; what was noted before is still
there, and that is what is expected to have been collected last. -/
example :
    let sh := fresh.runAll ["policy raise", "new k container", "new a container", "link a a",
      "finalizer a resurrect k", "del a", "new b container", "link b b", "del b", "collect"]
    (sh.totalCollected, sh.lastCollected) = (1, 0) ∧
      (sh.runLine "expect-collected 1").1 = false ∧ (sh.runLine "expect-collected 0").1 = true := by
  decide +kernel

end Shell

end Reclaim
