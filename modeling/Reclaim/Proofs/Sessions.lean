import Reclaim.Proofs.Commands

/-!
# Sessions of the shell

A session goes on line by line, whether lines succeed or fail, are executed by themselves or belong
to a script (`Shell.Attained`). The shell is sound between any two of its lines
(`Shell.Attained.sound`), so its root references are accounted for
(`Shell.Attained.roots_accounted`), and a line that fails leaves everything as it was unless it
reports what was resurrected (`Shell.Attained.failure_keeps`).
-/

set_option autoImplicit false

namespace Reclaim

open Machine

namespace Shell

variable {sh sh' : Shell}

/-- A shell between the lines of a session. Lines are executed by themselves or as those of a
script, and whatever is on the console may be taken from it or be added to it. -/
inductive Attained : Shell → Prop where
  | start {settings : Settings} {echo : Bool} {sh : Shell} :
      Shell.start settings echo = .ok sh → Attained sh
  | succeed {sh sh' : Shell} {text : String} {line : Int} :
      Attained sh → execute text line sh = .ok () sh' → Attained sh'
  | fail {sh sh' : Shell} {text : String} {line : Int} {fault : Fault} :
      Attained sh → execute text line sh = .error fault sh' → Attained sh'
  | console {sh : Shell} (console : Console) :
      Attained sh → Attained { sh with machine.console := console }

namespace Attained

theorem runLine (run : Attained sh) (text : String) : Attained (sh.runLine text).2 := by
  unfold Shell.runLine
  cases executed : execute text (-1) sh with
  | ok _ sh' => exact run.succeed executed
  | error fault sh' => exact (run.fail executed).console _

theorem runLines (run : Attained sh) (line : Nat) (texts : List String) :
    Attained (sh.runLines line texts).2 := by
  induction texts generalizing sh line with
  | nil => exact run
  | cons text rest ih =>
    unfold Shell.runLines
    cases executed : execute text line sh with
    | ok _ sh' => exact ih (run.succeed executed) (line + 1)
    | error fault sh' => exact (run.fail executed).console _

theorem runScript (run : Attained sh) (source : String) : Attained (sh.runScript source).2 :=
  run.runLines 1 (Text.lines source)

theorem clearConsole (run : Attained sh) : Attained sh.clearConsole := run.console {}

/-- Shells are sound between lines. -/
theorem sound (run : Attained sh) : sh.Sound := by
  induction run with
  | @start settings echo sh run =>
    obtain ⟨m, started, run⟩ := Heap.exists_of_bind run
    cases run
    have free (name : String) : ({ machine := m, echo } : Shell).bindings[name]? = none :=
      Std.ExtTreeMap.getElem?_empty
    refine ⟨?_, fun {name x} bound => ?_⟩
    · have none : ({ machine := m, echo } : Shell).holdings = fun _ => 0 := by
        funext x
        refine Finset.card_eq_zero.mpr (Finset.eq_empty_of_forall_notMem fun name bound => ?_)
        rw [mem_boundTo, free] at bound
        cases bound
      exact none ▸ rests_of_start started
    · rw [free] at bound
      cases bound
  | @succeed sh sh' text line _ executed ih =>
    have ends := execute_lawful text line sh ih
    unfold Ends at ends
    rwa [executed] at ends
  | @fail sh sh' text line fault _ executed ih =>
    have ends := execute_lawful text line sh ih
    unfold Ends at ends
    rw [executed] at ends
    exact ends.sound
  | console console _ ih => exact ⟨ih.rests.congr rfl, ih.known⟩

end Attained

/-- Root references of a session. After every line of every session, each bound name stands for a
live object, the one that the name was bound to last; an object has as many root references as there
are names bound to it, and one more if it is listed as saved, which happens at most once; and what
is listed is live. No command ever fails because the shell gives back a reference that it does not
hold. -/
theorem Attained.roots_accounted (run : Attained sh) :
    (∀ (name : String) (x : ObjectId), sh.bindings[name]? = some x →
      sh.names[name]? = some x ∧ ∃ o, sh.machine.memory.heap.get? x = some o) ∧
    (∀ x o, sh.machine.memory.heap.get? x = some o →
      o.rootCount = (sh.boundTo x).card + sh.machine.memory.saved.count x ∧
        sh.machine.memory.saved.count x ≤ 1) ∧
    (∀ x ∈ sh.machine.memory.saved, ∃ o, sh.machine.memory.heap.get? x = some o) ∧
    ∀ {text name : String} {line : Int} {arguments : List String} {command : Command}
      {fault : Fault} {sh' : Shell}, Text.words text = name :: arguments →
        Command.ofWords line name arguments = .ok command →
          execute text line sh = .error fault sh' → sh.MayFail command fault := by
  have S := run.sound
  have O := S.rests.owns
  refine ⟨fun name x bound => ⟨S.known bound, O.live x ?_⟩, fun x o ho => ⟨O.roots x o ho, ?_⟩,
    fun x listed => O.live x ?_,
    fun {text name line arguments command fault sh'} words parsed failed => ?_⟩
  · exact Nat.add_pos_left (holdings_pos bound) _
  · exact List.nodup_iff_count_le_one.mp O.nodup x
  · exact Nat.add_pos_right _ (List.count_pos_iff.mpr listed)
  · rw [execute_of_command words parsed] at failed
    have opened : (sh.opened text).Sound := ⟨S.rests.congr rfl, S.known⟩
    have may := opened.mayFail failed
    cases command <;> exact may

/-- The shell after a line, whatever it ends in. -/
def after (sh : Shell) (text : String) (line : Int) : Shell :=
  match execute text line sh with
  | .ok _ sh' => sh'
  | .error _ sh' => sh'

theorem after_of_error {sh' : Shell} {text : String} {line : Int} {fault : Fault}
    (failed : execute text line sh = .error fault sh') : sh.after text line = sh' := by
  unfold after
  rw [failed]

/-- The fault that a line ends in. -/
def fault? (sh : Shell) (text : String) (line : Int) : Option Fault :=
  match execute text line sh with
  | .ok _ _ => none
  | .error fault _ => some fault

theorem exists_of_fault? {text : String} {line : Int} {fault : Fault}
    (failed : sh.fault? text line = some fault) :
    ∃ sh', execute text line sh = .error fault sh' := by
  unfold fault? at failed
  cases executed : execute text line sh with
  | ok _ sh' =>
    rw [executed] at failed
    cases failed
  | error e sh' =>
    rw [executed] at failed
    cases failed
    exact ⟨sh', rfl⟩

/-- A shell that has just been started. -/
def fresh : Shell := { machine := (Machine.start (some {})).toOption.getD {} }

/-- A session that leaves two names for one container, and another container that was saved. -/
def estate : Shell :=
  (fresh.runScript ("new a container\nlink a a\nbind b a\ndebug saveall\n" ++
    "new c container\nlink c c\ndel c\ncollect")).2

theorem attained_estate : Attained estate :=
  (Attained.start (show Shell.start {} false = .ok fresh from rfl)).runScript _

/-- The first container has the root references of its two names, the saved one that of the
collector; and a name that is free already is refused as such. -/
theorem roots_accounted_estate :
    (∃ o, estate.machine.memory.heap.get? 1 = some o ∧ o.rootCount = 2) ∧
      (∃ o, estate.machine.memory.heap.get? 2 = some o ∧ o.rootCount = 1) ∧
      estate.MayFail (.del "c") (.command (.notBound "c") (-1)) := by
  obtain ⟨saved, owned, named, nameless, free⟩ :
      estate.machine.memory.saved = [2] ∧ estate.bindings["a"]? = some 1 ∧
        (estate.boundTo 1).card = 2 ∧ (estate.boundTo 2).card = 0 ∧
        estate.fault? "del c" (-1) = some (.command (.notBound "c") (-1)) := by decide +kernel
  obtain ⟨bound, counted, listed, refused⟩ := attained_estate.roots_accounted
  obtain ⟨-, o, ho⟩ := bound "a" 1 owned
  obtain ⟨p, hp⟩ := listed 2 (saved ▸ List.mem_cons_self)
  obtain ⟨sh', failed⟩ := exists_of_fault? free
  have words : Text.words "del c" = ["del", "c"] := by decide +kernel
  refine ⟨⟨o, ho, ?_⟩, ⟨p, hp, ?_⟩, refused words rfl failed⟩
  · rw [(counted 1 o ho).1, named, saved]
    rfl
  · rw [(counted 2 p hp).1, nameless, saved]
    rfl

/-- A command that fails changes nothing. If a line of a session ends in a fault other than the
report of resurrected objects, then the heap with all finalizers, the collector with its settings,
its books and its saved garbage, the names with what they are bound to and were last bound to, and
the number that was last collected are what they were. -/
theorem Attained.failure_keeps (run : Attained sh) {text : String} {line : Int} {fault : Fault}
    (failed : execute text line sh = .error fault sh')
    (other : ∀ ids collected, fault ≠ .resurrectionDetected ids collected) :
    sh'.machine.memory = sh.machine.memory ∧ sh'.bindings = sh.bindings ∧ sh'.names = sh.names ∧
      sh'.lastCollected = sh.lastCollected := by
  have ends := execute_lawful text line sh run.sound
  unfold Ends at ends
  rw [failed] at ends
  obtain ⟨console, journal, rfl⟩ := ends.kept other
  exact ⟨rfl, rfl, rfl, rfl⟩

/-- A name that was never bound cannot be linked to. -/
theorem failure_keeps_estate :
    ∃ sh', execute "link a d" (-1) estate = .error (.command (.unknownName "d") (-1)) sh' ∧
      sh'.machine.memory = estate.machine.memory ∧ sh'.bindings = estate.bindings ∧
      sh'.names = estate.names ∧ sh'.lastCollected = estate.lastCollected := by
  obtain ⟨sh', failed⟩ := exists_of_fault? (show estate.fault? "link a d" (-1) =
    some (.command (.unknownName "d") (-1)) by decide +kernel)
  exact ⟨sh', failed, attained_estate.failure_keeps failed nofun⟩

end Shell

end Reclaim
