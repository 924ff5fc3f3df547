import Reclaim.Proofs.Refusals
import Reclaim.Proofs.ShellCollections

/-!
# Numbers of lines

A line is carried out with the number that it has in its script. The number decides about nothing
but the refusals that name it: under any number the line comes to the same end, in the same shell
(`Shell.uniform_execute`). Refusals that do not name it are those of names that are not known or not
bound, of words that are no debug flags, of references and of settings, and the reports of what was
resurrected (`Fault.Unnumbered`).
-/

set_option autoImplicit false

namespace Reclaim

open Machine

/-- A fault that a line may end in, and that does not name its number. -/
inductive Fault.Unnumbered : Fault → Prop
  | command (cause : CommandFault) : Unnumbered (.command cause (-1))
  | invalidReference (x : ObjectId) (cause : ReferenceFault) : Unnumbered (.invalidReference x cause)
  | invalidConfiguration (cause : ConfigurationFault) : Unnumbered (.invalidConfiguration cause)
  | resurrectionDetected (ids : List ObjectId) (collected : Nat) :
      Unnumbered (.resurrectionDetected ids collected)

namespace Shell

variable {sh sh' : Shell}

/-! ## Actions -/

section Uniform

variable {α β : Type} {act : ShellAct α}

/-- Under any number an action ends with the same in the same sound shell, is refused for the same
cause under that number, or is refused by the same fault. -/
inductive Settled (f : Int → ShellAct α) (sh : Shell) : Prop
  | succeeds {sh' : Shell} (a : α) : sh'.Sound → (∀ line, f line sh = .ok a sh') → Settled f sh
  | blames {sh' : Shell} (cause : CommandFault) :
      (∀ line, f line sh = .error (.command cause line) sh') → Settled f sh
  | refuses {sh' : Shell} (fault : Fault) : fault.Unnumbered →
      (∀ line, f line sh = .error fault sh') → Settled f sh

/-- So it does in every sound shell. -/
def Uniform (f : Int → ShellAct α) : Prop := ∀ sh, sh.Sound → Settled f sh

theorem Settled.of_eq {f g : Int → ShellAct α} (settled : Settled g sh')
    (same : ∀ line, f line sh = g line sh') : Settled f sh := by
  cases settled with
  | succeeds a S ends => exact .succeeds a S fun line => (same line).trans (ends line)
  | blames cause ends => exact .blames cause fun line => (same line).trans (ends line)
  | refuses fault un ends => exact .refuses fault un fun line => (same line).trans (ends line)

theorem Uniform.bind {f : Int → ShellAct α} {g : Int → α → ShellAct β} (first : Uniform f)
    (next : ∀ a, Uniform fun line => g line a) : Uniform fun line => f line >>= g line := by
  intro sh S
  have of_error {e : Fault} {sh' : Shell} {line : Int} (failed : f line sh = .error e sh') :
      (f line >>= g line) sh = .error e sh' := by
    show EStateM.bind _ _ sh = _
    rw [EStateM.bind, failed]
  cases first sh S with
  | @succeeds sh' a S' ends =>
    refine (next a sh' S').of_eq fun line => ?_
    show EStateM.bind _ _ sh = _
    rw [EStateM.bind, ends]
  | blames cause ends => exact .blames cause fun line => of_error (ends line)
  | refuses fault un ends => exact .refuses fault un fun line => of_error (ends line)

/-- An action without a number ends as it ends. -/
theorem settled_of_ends (ends : Ends act sh (fun _ sh' => sh'.Sound) fun e _ => e.Unnumbered) :
    Settled (fun _ => act) sh := by
  unfold Ends at ends
  cases run : act sh with
  | ok a sh' =>
    rw [run] at ends
    exact .succeeds a ends fun _ => run
  | error e sh' =>
    rw [run] at ends
    exact .refuses e ends fun _ => run

theorem Sure.uniform (sure : Sure act) : Uniform fun _ => act := by
  intro sh S
  exact settled_of_ends ((sure sh S).mono (fun _ _ => id) fun _ _ => False.elim)

theorem uniform_pure (a : α) : Uniform fun _ => pure a := by
  intro sh S
  exact .succeeds a S fun _ => rfl

/-- Whoever throws a fault of the command itself gives it the number of the line. -/
theorem uniform_blame (cause : CommandFault) :
    Uniform fun line => (throw (.command cause line) : ShellAct α) := by
  intro sh S
  exact .blames cause fun _ => rfl

theorem uniform_expect (holds : Bool) (cause : CommandFault) :
    Uniform fun line => expect holds cause line := by
  cases holds with
  | true => exact uniform_pure ()
  | false => exact uniform_blame cause

theorem uniform_print (text : String) : Uniform fun _ => print text := (sure_print text).uniform

theorem uniform_get : Uniform fun _ => (get : ShellAct Shell) := by
  intro sh S
  exact .succeeds sh S fun _ => rfl

theorem uniform_lookup (name : String) : Uniform fun _ => lookup name := by
  intro sh S
  apply settled_of_ends
  refine (lookup_ends name sh).mono ?_ ?_
  · rintro _ sh' ⟨rfl, -⟩
    exact S
  · rintro e sh' ⟨-, -, rfl⟩
    exact .command _

end Uniform

/-! ## Reading a line -/

section Reading

variable {α β : Type} {f : Int → Except Fault α}

/-- What has been read, unless that is refused. -/
def ofExcept : Except Fault α → ShellAct α
  | .ok a => pure a
  | .error e => throw e

theorem Uniform.ofExcept_bind {g : Int → α → Except Fault β}
    (first : Uniform fun line => ofExcept (f line))
    (next : ∀ a, Uniform fun line => ofExcept (g line a)) :
    Uniform fun line => ofExcept (f line >>= g line) := by
  have split (line : Int) :
      ofExcept (f line >>= g line) = ofExcept (f line) >>= fun a => ofExcept (g line a) := by
    cases f line <;> rfl
  simp only [split]
  exact first.bind next

theorem uniform_of_ok {a : α} (reads : ∀ line, f line = .ok a) :
    Uniform fun line => ofExcept (f line) := by
  simp only [reads]
  exact uniform_pure a

theorem uniform_of_blame (cause : CommandFault)
    (refused : ∀ line, f line = .error (.command cause line)) :
    Uniform fun line => ofExcept (f line) := by
  simp only [refused]
  exact uniform_blame cause

theorem uniform_accept (a : α) : Uniform fun _ => ofExcept (pure a) := uniform_pure a

theorem uniform_readCount (text : String) :
    Uniform fun line => ofExcept (Command.readCount line text) := by
  unfold Command.readCount
  cases Text.numeral? text with
  | none => exact uniform_blame (.notNumeral text)
  | some n =>
    by_cases fits : n < Text.wordSize
    · simp only [if_pos fits]
      exact uniform_accept n
    · simp only [if_neg fits]
      exact uniform_blame (.numeralRange text)

theorem uniform_readGeneration (text : String) :
    Uniform fun line => ofExcept (Command.readGeneration line text) := by
  refine (uniform_readCount text).ofExcept_bind fun n => ?_
  cases Generation.ofInt? n with
  | some g => exact uniform_accept g
  | none => exact uniform_blame .generationRange

theorem uniform_readKind (text : String) :
    Uniform fun line => ofExcept (Command.readKind line text) := by
  fun_cases Command.readKind 0 text with
  | case1 | case2 => exact uniform_of_ok fun _ => rfl
  | case3 =>
    refine uniform_of_blame .kindWord fun line => ?_
    rw [Command.readKind] <;> assumption

theorem uniform_readPolicy (text : String) :
    Uniform fun line => ofExcept (Command.readPolicy line text) := by
  fun_cases Command.readPolicy 0 text with
  | case1 | case2 => exact uniform_of_ok fun _ => rfl
  | case3 =>
    refine uniform_of_blame .policyWord fun line => ?_
    rw [Command.readPolicy] <;> assumption

/-- A list of debug flags is refused for a word that is none, without a number. -/
theorem uniform_debugFlags (text : String) :
    Uniform fun _ => ofExcept (DebugFlags.ofText text) := by
  unfold DebugFlags.ofText
  generalize Text.items ',' text = words, DebugFlags.none = flags
  induction words generalizing flags with
  | nil => exact uniform_accept flags
  | cons word rest ih =>
    simp only [List.foldlM_cons]
    cases DebugFlags.ofWord? word with
    | none =>
      intro sh S
      exact .refuses _ (.command (.unknownFlag word)) fun _ => rfl
    | some more => exact ih (flags.union more)

/-- A line of words is read as the same command under any number, or refused for the same cause. -/
theorem uniform_ofWords (name : String) (arguments : List String) :
    Uniform fun line => ofExcept (Command.ofWords line name arguments) := by
  fun_cases Command.ofWords 0 name arguments
  case case1 name kind =>
    exact (uniform_readKind kind).ofExcept_bind fun kind =>
      uniform_accept (Command.new name kind kind.name)
  case case2 name kind typeName =>
    exact (uniform_readKind kind).ofExcept_bind fun kind =>
      uniform_accept (Command.new name kind typeName)
  case case10 numeral =>
    exact (uniform_readGeneration numeral).ofExcept_bind fun g =>
      uniform_accept (Command.collect (some g))
  case case13 young middle old =>
    exact (uniform_readCount old).ofExcept_bind fun old =>
      (uniform_readCount middle).ofExcept_bind fun middle =>
        (uniform_readCount young).ofExcept_bind fun young =>
          uniform_accept (Command.threshold #v[young, middle, old])
  case case14 text =>
    exact (uniform_debugFlags text).ofExcept_bind fun flags => uniform_accept (Command.debug flags)
  case case15 word =>
    exact (uniform_readPolicy word).ofExcept_bind fun policy =>
      uniform_accept (Command.policy policy)
  case case22 numeral =>
    exact (uniform_readCount numeral).ofExcept_bind fun count =>
      uniform_accept (Command.expectCollected count)
  case case23 name numeral =>
    exact (uniform_readCount numeral).ofExcept_bind fun count =>
      uniform_accept (Command.expectTracked name numeral (Text.narrow count))
  -- what is left of the names is the wrong number of arguments, or no command at all
  case case25 =>
    refine uniform_of_blame (.argumentCount name) fun line => ?_
    rw [Command.ofWords]
    · exact if_pos ‹_›
    all_goals assumption
  case case26 =>
    refine uniform_of_blame (.unknownCommand name) fun line => ?_
    rw [Command.ofWords]
    · exact if_neg ‹_›
    all_goals assumption
  -- the other commands are made of their arguments as these are
  all_goals exact uniform_of_ok fun _ => rfl

end Reading

/-! ## Operations on the machine -/

section Quietly

variable {α : Type} {action : Act α}

theorem uniform_heap : Uniform fun _ => quietly Act.heap := by
  intro sh S
  exact .succeeds sh.machine.memory.heap S fun _ => rfl

theorem uniform_memory : Uniform fun _ => quietly Act.memory := by
  intro sh S
  exact .succeeds sh.machine.memory S fun _ => rfl

/-- The collector is there. -/
theorem uniform_collector : Uniform fun _ => quietly Act.collector := by
  intro sh S
  obtain ⟨c, hc⟩ := S.rests.present
  exact .succeeds c S fun _ => quietly_of_ok (Act.collector_of_some hc)

/-- An operation on the graph is refused for a reference that cannot be used. -/
theorem uniform_of_refusedIff {reason : Machine → Prop} (lawful : Lawful (quietly action))
    (iff : ∀ s, action.RefusedIff s (reason s)) : Uniform fun _ => quietly action := by
  intro sh S
  have ends := lawful sh S
  by_cases holds : reason sh.machine
  · obtain ⟨x, cause, -, refused⟩ := (iff sh.machine).refused holds
    exact .refuses _ (.invalidReference x cause) fun _ => quietly_of_error refused
  · obtain ⟨a, m, run⟩ := (iff sh.machine).succeeds holds
    have done : quietly action sh = .ok a { sh with machine := m } := quietly_of_ok run
    unfold Ends at ends
    rw [done] at ends
    exact .succeeds a ends fun _ => done

theorem uniform_addEdge (source target : ObjectId) :
    Uniform fun _ => quietly (Host.addEdge source target) :=
  uniform_of_refusedIff (lawful_addEdge source target) (Host.addEdge_refusedIff source target)

theorem uniform_setFinalizer (y : ObjectId) (name : String) (holder : Option ObjectId) :
    Uniform fun _ => quietly (Host.setFinalizer y (some (finalizerScript name holder))) :=
  uniform_of_refusedIff (lawful_setFinalizer y name holder) (Host.setFinalizer_refusedIff y _)

theorem uniform_removeEdge (source target : ObjectId) :
    Uniform fun _ => onMachine (Host.removeEdge · source target) := by
  intro sh S
  have refuses {x : ObjectId} {cause : ReferenceFault}
      (run : sh.machine.memory.heap.cut source target = .error (.invalidReference x cause)) :
      Settled (fun _ => onMachine (Host.removeEdge · source target)) sh :=
    .refuses _ (.invalidReference x cause) fun _ => quietly_of_error (Host.removeEdge_of_error run)
  cases hx : sh.machine.memory.heap.get? source with
  | none => exact refuses (Heap.cut_of_dead hx)
  | some o =>
    by_cases mem : target ∈ o.references
    · obtain ⟨m, removed, R⟩ := S.rests.removeEdge (Heap.cut_of_mem hx mem)
      have done : onMachine (Host.removeEdge · source target) sh =
          .ok () { sh with machine := m } := quietly_of_ok removed
      refine .succeeds () ?_ fun _ => done
      exact ⟨R, S.known⟩
    · exact refuses (Heap.cut_of_not_mem hx mem)

/-- A change of the settings is refused for the settings. -/
theorem uniform_configure {f : Collector → Except Fault Collector}
    (lawful : Lawful (quietly (Host.configure f)))
    (faults : ∀ {c e}, f c = .error e → e.Unnumbered) :
    Uniform fun _ => quietly (Host.configure f) := by
  intro sh S
  obtain ⟨c, hc⟩ := S.rests.present
  have ends := lawful sh S
  cases run : f c with
  | error e =>
    have refused : Host.configure f sh.machine = .error e sh.machine := by
      simp only [Host.configure, Act.bind_apply, Act.collector_of_some hc, run, Act.ofExcept_error]
    exact .refuses e (faults run) fun _ => quietly_of_error refused
  | ok c' =>
    rcases Host.configure_cases f sh.machine with ⟨e, refused⟩ | ⟨c, c', -, -, configured⟩
    · simp [Host.configure, Act.bind_apply, Act.collector_of_some hc, run] at refused
    · unfold Ends at ends
      rw [quietly_of_ok configured] at ends
      exact .succeeds () ends fun _ => quietly_of_ok configured

theorem uniform_setThresholds (counts : PerGeneration Nat) :
    Uniform fun _ => quietly (Host.setThresholds counts) := by
  refine uniform_configure (lawful_setThresholds counts) fun {c e} refused => ?_
  unfold Tracker.setThresholds at refused
  cases counted : Thresholds.ofCounts counts with
  | ok thresholds =>
    rw [counted] at refused
    cases refused
  | error fault =>
    obtain ⟨g, -, rfl⟩ := Thresholds.exists_of_ofCounts counted
    rw [counted] at refused
    cases refused
    exact .invalidConfiguration _

/-- A collection is refused for what it reports. -/
theorem uniform_collect (generation : Option Generation) :
    Uniform fun line => run line (.collect generation) := by
  intro sh S
  apply settled_of_ends
  obtain ⟨outcome, m, R, -, done | reported⟩ := S.collect 0 generation
  · exact ends_of_ok done ⟨R.congr rfl, S.known⟩
  · exact ends_of_error reported (.resurrectionDetected _ _)

end Quietly

/-! ## Commands -/

/-- A command does the same under any number of its line. -/
theorem uniform_run (command : Command) : Uniform fun line => run line command := by
  cases command with
  | new name kind typeName => exact (sure_new 0 name kind typeName).uniform
  | bind name other =>
    intro sh S
    refine settled_of_ends ((bind_ends S 0 name other).mono (fun _ _ => id) ?_)
    rintro e sh' ⟨-, ⟨-, rfl⟩ | ⟨x, -, -, rfl⟩⟩
    · exact .command _
    · exact .invalidReference x _
  | del name =>
    intro sh S
    refine settled_of_ends ((unbindName_ends S name).mono (fun _ _ => id) ?_)
    rintro e sh' ⟨-, rfl, -⟩
    exact .command _
  | link source target =>
    exact (uniform_lookup target).bind fun target => (uniform_lookup source).bind fun source =>
      uniform_addEdge source target
  | unlink source target =>
    exact (uniform_lookup target).bind fun target => (uniform_lookup source).bind fun source =>
      uniform_removeEdge source target
  | finalizer name word =>
    refine (uniform_lookup name).bind fun y => ?_
    match word with
    | .log => exact uniform_setFinalizer y name none
    | .resurrect none => exact uniform_blame .holderMissing
    | .resurrect (some holder) =>
      exact (uniform_lookup holder).bind fun holder => uniform_setFinalizer y name (some holder)
    | .unknown => exact uniform_blame .finalizerWord
  | collect generation => exact uniform_collect generation
  | enable => exact uniform_configure (lawful_setEnabled true) nofun
  | disable => exact uniform_configure (lawful_setEnabled false) nofun
  | threshold counts => exact uniform_setThresholds counts
  | debug flags => exact uniform_configure (lawful_setDebug flags) nofun
  | policy policy => exact uniform_configure (lawful_setPolicy policy) nofun
  | describe name =>
    exact (uniform_print _).bind fun _ => (uniform_lookup name).bind fun _ =>
      uniform_heap.bind fun _ => uniform_print _
  | tracked =>
    exact uniform_memory.bind fun _ => uniform_collector.bind fun _ => uniform_print _
  | count | garbage => exact uniform_collector.bind fun _ => uniform_print _
  | stats =>
    exact uniform_collector.bind fun _ => uniform_heap.bind fun _ => (uniform_print _).bind fun _ =>
      uniform_print _
  | clearGarbage => exact (sure_clearGarbage 0).uniform
  | expectCollected count => exact uniform_get.bind fun _ => uniform_expect _ _
  | expectTracked name written generation =>
    exact (uniform_lookup name).bind fun _ => uniform_collector.bind fun _ => uniform_expect _ _
  | expectLiveness name alive =>
    refine (uniform_lookup name).bind fun _ => uniform_heap.bind fun h => ?_
    match alive with
    | some true => exact uniform_expect _ _
    | some false => exact uniform_expect _ _
    | none => exact uniform_blame .livenessWord

/-- A line of words is read and run. -/
theorem execute_of_words {text name : String} {arguments : List String}
    (words : Text.words text = name :: arguments) (line : Int) : execute text line sh =
      (ofExcept (Command.ofWords line name arguments) >>= run line) (sh.opened text) := by
  cases parsed : Command.ofWords line name arguments with
  | ok command => exact execute_of_command words parsed
  | error fault => exact execute_of_fault words parsed

/-- So does a line. -/
theorem uniform_execute (text : String) : Uniform fun line => execute text line := by
  intro sh S
  cases words : Text.words text with
  | nil =>
    refine .succeeds () ?_ fun _ => execute_of_blank words
    exact ⟨S.rests.congr rfl, S.known⟩
  | cons name arguments =>
    have opened : (sh.opened text).Sound := ⟨S.rests.congr rfl, S.known⟩
    have runs := (uniform_ofWords name arguments).bind uniform_run (sh.opened text) opened
    exact runs.of_eq (execute_of_words words)

end Shell

end Reclaim
