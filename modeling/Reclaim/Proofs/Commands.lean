import Reclaim.Proofs.ShellMachine
import Reclaim.Shell.Session

/-!
# Commands of the shell

Between commands the root references to an object are those of the names that are bound to it, and
one of the collector if the object is listed as saved (`Shell.Sound`). A command hands references
over from one operation to the next: an allocation or a retention gives one to the shell, which
binding a name takes over, and the reference that the name held before is given back
(`Shell.bindName_ends`). No command gives back what the shell does not hold, so releasing never
fails (`Shell.Sound.mayFail`). A command that fails for another reason than resurrected objects has
changed nothing (`Shell.execute_lawful`): what precedes its last operation that may be refused only
reads.
-/

set_option autoImplicit false

namespace Reclaim

open Machine

/-! ## Outcomes -/

section Ends

variable {σ α β : Type} {act : EStateM Fault σ α} {f : α → EStateM Fault σ β} {s s' : σ}
  {P : α → σ → Prop} {P' : β → σ → Prop} {E E' : Fault → σ → Prop}

/-- What holds when an action has succeeded, and what holds when it has failed. -/
def Ends (act : EStateM Fault σ α) (s : σ) (P : α → σ → Prop) (E : Fault → σ → Prop) : Prop :=
  match act s with
  | .ok a s' => P a s'
  | .error e s' => E e s'

theorem ends_of_ok {a : α} (run : act s = .ok a s') (h : P a s') : Ends act s P E := by
  unfold Ends
  rw [run]
  exact h

theorem ends_of_error {e : Fault} (run : act s = .error e s') (h : E e s') : Ends act s P E := by
  unfold Ends
  rw [run]
  exact h

theorem Ends.bind (first : Ends act s P E) (next : ∀ a s', P a s' → Ends (f a) s' P' E')
    (fails : ∀ e s', E e s' → E' e s') : Ends (act >>= f) s P' E' := by
  unfold Ends at first ⊢
  show match EStateM.bind act f s with
    | .ok a s' => P' a s'
    | .error e s' => E' e s'
  unfold EStateM.bind
  cases run : act s with
  | ok a s' =>
    rw [run] at first
    exact next a s' first
  | error e s' =>
    rw [run] at first
    exact fails e s' first

theorem Ends.mono {Q : α → σ → Prop} (ends : Ends act s P E) (succeeds : ∀ a s', P a s' → Q a s')
    (fails : ∀ e s', E e s' → E' e s') : Ends act s Q E' := by
  unfold Ends at ends ⊢
  cases run : act s with
  | ok a s' =>
    rw [run] at ends
    exact succeeds a s' ends
  | error e s' =>
    rw [run] at ends
    exact fails e s' ends

end Ends

namespace Shell

variable {sh sh' sh'' : Shell} {name : String} {y x : ObjectId}

/-! ## What a shell holds -/

/-- The names that are bound to an object. -/
def boundTo (sh : Shell) (x : ObjectId) : Finset String :=
  (sh.bindings.keys.filter fun name => sh.bindings[name]? = some x).toFinset

/-- How many root references the shell holds to each object: one for each name. -/
def holdings (sh : Shell) : Holdings := fun x => (sh.boundTo x).card

theorem mem_boundTo : name ∈ sh.boundTo x ↔ sh.bindings[name]? = some x := by
  unfold boundTo
  rw [List.mem_toFinset, List.mem_filter, decide_eq_true_iff, Std.ExtTreeMap.mem_keys,
    and_iff_right_iff_imp]
  intro bound
  rw [Std.ExtTreeMap.mem_iff_isSome_getElem?, bound]
  rfl

/-- The shell after a name has been bound, before the name gives back what it held. -/
def bound (sh : Shell) (name : String) (y : ObjectId) : Shell :=
  { sh with bindings := sh.bindings.insert name y, names := sh.names.insert name y }

/-- The shell after a name has been unbound. -/
def unbound (sh : Shell) (name : String) : Shell :=
  { sh with bindings := sh.bindings.erase name }

theorem bindings_bound (sh : Shell) (name other : String) (y : ObjectId) :
    (sh.bound name y).bindings[other]? = if name = other then some y else sh.bindings[other]? := by
  simp only [bound, Std.ExtTreeMap.getElem?_insert, Std.LawfulEqCmp.compare_eq_iff_eq]

theorem names_bound (sh : Shell) (name other : String) (y : ObjectId) :
    (sh.bound name y).names[other]? = if name = other then some y else sh.names[other]? := by
  simp only [bound, Std.ExtTreeMap.getElem?_insert, Std.LawfulEqCmp.compare_eq_iff_eq]

theorem bindings_unbound (sh : Shell) (name other : String) :
    (sh.unbound name).bindings[other]? = if name = other then none else sh.bindings[other]? := by
  simp only [unbound, Std.ExtTreeMap.getElem?_erase, Std.LawfulEqCmp.compare_eq_iff_eq]

theorem boundTo_bound (sh : Shell) (name : String) (y x : ObjectId) :
    (sh.bound name y).boundTo x =
      if x = y then insert name (sh.boundTo x) else (sh.boundTo x).erase name := by
  ext other
  rw [mem_boundTo, bindings_bound]
  split
  · next same =>
    subst same
    by_cases e : x = y
    · simp [e]
    · simp [e, Ne.symm e]
  · next ne =>
    by_cases e : x = y <;> simp [e, mem_boundTo, Ne.symm ne]

theorem boundTo_unbound (sh : Shell) (name : String) (x : ObjectId) :
    (sh.unbound name).boundTo x = (sh.boundTo x).erase name := by
  ext other
  rw [mem_boundTo, bindings_unbound, Finset.mem_erase, mem_boundTo]
  by_cases same : name = other <;> simp [same, eq_comm]

theorem card_insert_boundTo (sh : Shell) (name : String) (x : ObjectId) :
    (insert name (sh.boundTo x)).card =
      if sh.bindings[name]? = some x then sh.holdings x else sh.holdings x + 1 := by
  rw [Finset.card_insert_eq_ite]
  simp only [mem_boundTo, holdings]

theorem card_erase_boundTo (sh : Shell) (name : String) (x : ObjectId) :
    ((sh.boundTo x).erase name).card =
      if sh.bindings[name]? = some x then sh.holdings x - 1 else sh.holdings x := by
  rw [Finset.card_erase_eq_ite]
  simp only [mem_boundTo, holdings]

/-- Binding a name to an object takes over one reference to it. -/
theorem holdings_bound_of_none (fresh : sh.bindings[name]? = none) :
    (sh.bound name y).holdings = Function.update sh.holdings y (sh.holdings y + 1) := by
  funext x
  rw [holdings, boundTo_bound]
  by_cases e : x = y
  · subst e
    rw [if_pos rfl, card_insert_boundTo, fresh, if_neg nofun, Function.update_self]
  · rw [if_neg e, card_erase_boundTo, fresh, if_neg nofun, Function.update_of_ne e]

/-- If the name was bound before, the reference that it held is still to be given back. -/
theorem holdings_bound_of_some {old : ObjectId} (previous : sh.bindings[name]? = some old) :
    (sh.bound name y).holdings =
      Function.update (Function.update sh.holdings y (sh.holdings y + 1)) old
        (Function.update sh.holdings y (sh.holdings y + 1) old - 1) := by
  funext x
  rw [holdings, boundTo_bound]
  by_cases e : x = y
  · subst e
    rw [if_pos rfl, card_insert_boundTo, previous]
    by_cases again : old = x
    -- bound to the same object again, the name holds what it held
    · subst again
      rw [if_pos rfl, Function.update_self, Function.update_self, Nat.add_sub_cancel]
    · rw [if_neg (again ∘ Option.some.inj), Function.update_of_ne (Ne.symm again),
        Function.update_self]
  · rw [if_neg e, card_erase_boundTo, previous]
    by_cases last : old = x
    · subst last
      rw [if_pos rfl, Function.update_self, Function.update_of_ne e]
    · rw [if_neg (last ∘ Option.some.inj), Function.update_of_ne (Ne.symm last),
        Function.update_of_ne e]

theorem holdings_unbound (previous : sh.bindings[name]? = some y) :
    (sh.unbound name).holdings = Function.update sh.holdings y (sh.holdings y - 1) := by
  funext x
  rw [holdings, boundTo_unbound, card_erase_boundTo, previous]
  by_cases e : y = x
  · subst e
    rw [if_pos rfl, Function.update_self]
  · rw [if_neg (e ∘ Option.some.inj), Function.update_of_ne (Ne.symm e)]

/-- A bound name holds a reference. -/
theorem holdings_pos (previous : sh.bindings[name]? = some y) : 0 < sh.holdings y :=
  Finset.card_pos.mpr ⟨name, mem_boundTo.mpr previous⟩

/-- What holds of a shell between commands: names hold the references that are not the collector's,
and what is bound is known. -/
structure Sound (sh : Shell) : Prop where
  rests : sh.machine.Rests sh.holdings
  known : ∀ {name : String} {x : ObjectId}, sh.bindings[name]? = some x → sh.names[name]? = some x

/-- Two shells differ in the console and the journal only. -/
def Kept (sh sh' : Shell) : Prop :=
  ∃ console journal, sh' = { sh with machine := { sh.machine with console, journal } }

theorem Kept.refl (sh : Shell) : sh.Kept sh := ⟨_, _, rfl⟩

theorem Kept.trans (one : sh.Kept sh') (two : sh'.Kept sh'') : sh.Kept sh'' := by
  obtain ⟨_, _, rfl⟩ := one
  obtain ⟨console, journal, rfl⟩ := two
  exact ⟨console, journal, rfl⟩

theorem Sound.kept (S : sh.Sound) (kept : sh.Kept sh') : sh'.Sound := by
  obtain ⟨_, _, rfl⟩ := kept
  exact ⟨S.rests.congr rfl, S.known⟩

/-- A command has failed: nothing has changed, unless a collection reports what was resurrected. -/
structure Refused (sh : Shell) (e : Fault) (sh' : Shell) : Prop where
  sound : sh'.Sound
  kept : (∀ ids collected, e ≠ .resurrectionDetected ids collected) → sh.Kept sh'

theorem Refused.of_same {e : Fault} (S : sh.Sound) (same : sh' = sh) : sh.Refused e sh' := by
  subst same
  exact ⟨S, fun _ => .refl _⟩

/-! ## Kinds of commands -/

section Kinds

variable {α β : Type} {act : ShellAct α} {f : α → ShellAct β}

/-- The command changes nothing, whether it succeeds or fails. -/
def Reads (act : ShellAct α) : Prop := ∀ sh, Ends act sh (fun _ => sh.Kept) fun _ => sh.Kept

/-- The command succeeds. -/
def Sure (act : ShellAct α) : Prop :=
  ∀ sh, sh.Sound → Ends act sh (fun _ sh' => sh'.Sound) fun _ _ => False

/-- The command succeeds, or it is refused. -/
def Lawful (act : ShellAct α) : Prop :=
  ∀ sh, sh.Sound → Ends act sh (fun _ sh' => sh'.Sound) sh.Refused

theorem reads_pure (a : α) : Reads (pure a) := fun sh => .refl sh

theorem reads_throw (e : Fault) : Reads (throw e : ShellAct α) := fun sh => .refl sh

theorem reads_get : Reads (get : ShellAct Shell) := fun sh => .refl sh

theorem Reads.bind (reads : Reads act) (next : ∀ a, Reads (f a)) : Reads (act >>= f) := fun sh =>
  (reads sh).bind (fun a sh' kept => (next a sh').mono (fun _ _ => kept.trans)
    fun _ _ => kept.trans) fun _ _ => id

theorem Reads.lawful (reads : Reads act) : Lawful act := fun sh S =>
  (reads sh).mono (fun _ _ => S.kept) fun _ _ kept => ⟨S.kept kept, fun _ => kept⟩

/-- What comes after a look at the shell is as lawful as it is by itself. -/
theorem Reads.bind_lawful (reads : Reads act) (next : ∀ a, Lawful (f a)) : Lawful (act >>= f) :=
  fun sh S => (reads sh).bind (fun a sh' kept => (next a sh' (S.kept kept)).mono (fun _ _ => id)
    fun _ _ refused => ⟨refused.sound, fun other => kept.trans (refused.kept other)⟩)
      fun _ _ kept => ⟨S.kept kept, fun _ => kept⟩

theorem Sure.lawful (sure : Sure act) : Lawful act := fun sh S =>
  (sure sh S).mono (fun _ _ => id) fun _ _ => False.elim

theorem Sure.bind (sure : Sure act) (next : ∀ a, Sure (f a)) : Sure (act >>= f) := fun sh S =>
  (sure sh S).bind (fun a sh' S' => next a sh' S') fun _ _ => id

/-- What is sure to succeed may follow. -/
theorem Lawful.bind_sure (lawful : Lawful act) (next : ∀ a, Sure (f a)) : Lawful (act >>= f) :=
  fun sh S => (lawful sh S).bind (fun a sh' S' => (next a sh' S').mono (fun _ _ => id)
    fun _ _ => False.elim) fun _ _ => id

end Kinds

/-! ## Commands -/

section Quietly

variable {α : Type} {action : Act α}

theorem quietly_of_ok {a : α} {m : Machine} (run : action sh.machine = .ok a m) :
    quietly action sh = .ok a { sh with machine := m } := by
  simp only [quietly, run]

theorem quietly_of_error {e : Fault} {m : Machine} (run : action sh.machine = .error e m) :
    quietly action sh = .error e { sh with machine := m } := by
  simp only [quietly, run]

theorem reads_quietly (still : Act.Still action) : Reads (quietly action) := by
  intro sh
  have same := still sh.machine
  unfold Act.Always at same
  cases run : action sh.machine with
  | ok a m =>
    rw [run] at same
    subst same
    exact ends_of_ok (quietly_of_ok run) (.refl sh)
  | error e m =>
    rw [run] at same
    subst same
    exact ends_of_error (quietly_of_error run) (.refl sh)

theorem reads_print (text : String) : Reads (print text) := fun _ => ⟨_, _, rfl⟩

theorem lookup_apply (name : String) (sh : Shell) :
    lookup name sh = (match sh.resolve name with
      | .ok y => pure y
      | .error e => throw e : ShellAct ObjectId) sh := rfl

/-- A name is found as long as it has ever been bound. -/
theorem lookup_ends (name : String) (sh : Shell) :
    Ends (lookup name) sh (fun y sh' => sh' = sh ∧ sh.names[name]? = some y) fun e sh' =>
      sh' = sh ∧ sh.names[name]? = none ∧ e = .command (.unknownName name) (-1) := by
  cases known : sh.names[name]? with
  | none =>
    have refused : lookup name sh = .error (.command (.unknownName name) (-1)) sh := by
      rw [lookup_apply, resolve, known]
      rfl
    exact ends_of_error refused ⟨rfl, rfl, rfl⟩
  | some y =>
    have found : lookup name sh = .ok y sh := by
      rw [lookup_apply, resolve, known]
      rfl
    exact ends_of_ok found ⟨rfl, rfl⟩

theorem reads_lookup (name : String) : Reads (lookup name) := fun sh =>
  (lookup_ends name sh).mono (fun _ _ found => found.1 ▸ .refl sh)
    fun _ _ unknown => unknown.1 ▸ .refl sh

theorem reads_expect (holds : Bool) (cause : CommandFault) (line : Int) :
    Reads (expect holds cause line) := by
  unfold expect
  split
  · exact reads_pure ()
  · exact reads_throw _

end Quietly

theorem bindName_apply (name : String) (y : ObjectId) (sh : Shell) :
    bindName name y sh = (match sh.bindings[name]? with
      | some old => onMachine (Host.release · old)
      | none => pure () : ShellAct Unit) (sh.bound name y) := rfl

/-- A name takes over a reference that the shell has obtained, and gives back the one that it held
before. -/
theorem bindName_ends (R : sh.machine.Rests (Function.update sh.holdings y (sh.holdings y + 1)))
    (known : ∀ {name : String} {x : ObjectId}, sh.bindings[name]? = some x →
      sh.names[name]? = some x) (name : String) :
    Ends (bindName name y) sh (fun _ sh' => sh'.Sound) fun _ _ => False := by
  have known' {other : String} {x : ObjectId}
      (bound : (sh.bound name y).bindings[other]? = some x) :
      (sh.bound name y).names[other]? = some x := by
    rw [bindings_bound] at bound
    rw [names_bound]
    split
    · next e => rwa [if_pos e] at bound
    · next ne =>
      rw [if_neg ne] at bound
      exact known bound
  cases previous : sh.bindings[name]? with
  | none =>
    have bound : bindName name y sh = .ok () (sh.bound name y) := by
      rw [bindName_apply, previous]
      rfl
    exact ends_of_ok bound ⟨holdings_bound_of_none previous ▸ R, known'⟩
  | some old =>
    have bound : bindName name y sh = onMachine (Host.release · old) (sh.bound name y) := by
      rw [bindName_apply, previous]
    have mine : 0 < Function.update sh.holdings y (sh.holdings y + 1) old := by
      have held := holdings_pos previous
      by_cases again : old = y
      · subst again
        rw [Function.update_self]
        omega
      · rwa [Function.update_of_ne again]
    obtain ⟨m, released, R'⟩ := R.release mine
    have run : bindName name y sh = .ok () { sh.bound name y with machine := m } :=
      bound.trans (quietly_of_ok released)
    exact ends_of_ok run ⟨holdings_bound_of_some previous ▸ R', known'⟩

theorem unbindName_apply (name : String) (sh : Shell) :
    unbindName name sh = (match sh.bindings[name]? with
      | none => throw (.command (.notBound name) (-1))
      | some y => do
          onMachine (Host.release · y)
          modify (·.unbound name) : ShellAct Unit) sh := rfl

/-- A bound name gives back the reference that it holds, and is free then; a name that is not bound
is refused. -/
theorem unbindName_ends (S : sh.Sound) (name : String) :
    Ends (unbindName name) sh (fun _ sh' => sh'.Sound) fun e sh' =>
      sh.bindings[name]? = none ∧ e = .command (.notBound name) (-1) ∧ sh' = sh := by
  cases held : sh.bindings[name]? with
  | none =>
    have refused : unbindName name sh = .error (.command (.notBound name) (-1)) sh := by
      rw [unbindName_apply, held]
      rfl
    exact ends_of_error refused ⟨rfl, rfl, rfl⟩
  | some y =>
    obtain ⟨m, released, R⟩ := S.rests.release (holdings_pos held)
    have run : unbindName name sh = .ok () { sh.unbound name with machine := m } := by
      have given : onMachine (Host.release · y) sh = .ok () { sh with machine := m } :=
        quietly_of_ok released
      rw [unbindName_apply, held]
      show EStateM.bind (onMachine (Host.release · y)) _ sh = _
      rw [EStateM.bind, given]
      rfl
    refine ends_of_ok run ⟨holdings_unbound held ▸ R, fun {other x} bound => ?_⟩
    have before : (sh.unbound name).bindings[other]? = some x := bound
    rw [bindings_unbound] at before
    split at before
    · cases before
    · exact S.known before

/-! ## Lines -/

/-- The script of a finalizer only links. -/
theorem links_finalizerScript (name : String) (holder : Option ObjectId) :
    Script.isHostScript (finalizerScript name holder) = true ∧
      Script.everywhere Op.isLink (finalizerScript name holder) = true := by
  cases holder <;> exact ⟨rfl, rfl⟩

/-- An edit of the heap by the shell is made, or refused without any change. -/
theorem lawful_edit {f : Heap → Except Fault Heap}
    (rests : ∀ {own m h}, Machine.Rests own m → f m.memory.heap = .ok h →
      (m.withHeap h).Rests own) : Lawful (quietly (Act.edit f)) := by
  intro sh S
  cases run : f sh.machine.memory.heap with
  | ok h => exact ends_of_ok (quietly_of_ok (Act.edit_of_ok run)) ⟨rests S.rests run, S.known⟩
  | error e =>
    exact ends_of_error (quietly_of_error (Act.edit_of_error run)) (.of_same S rfl)

theorem lawful_addEdge (source target : ObjectId) :
    Lawful (quietly (Host.addEdge source target)) :=
  lawful_edit fun R run => R.addEdge run

theorem lawful_setFinalizer (y : ObjectId) (name : String) (holder : Option ObjectId) :
    Lawful (quietly (Host.setFinalizer y (some (finalizerScript name holder)))) := by
  obtain ⟨host, links⟩ := links_finalizerScript name holder
  exact lawful_edit fun R run => R.setFinalizer host links run

theorem lawful_removeEdge (source target : ObjectId) :
    Lawful (onMachine (Host.removeEdge · source target)) := by
  intro sh S
  cases run : sh.machine.memory.heap.cut source target with
  | ok h =>
    obtain ⟨m, removed, R⟩ := S.rests.removeEdge run
    exact ends_of_ok (quietly_of_ok removed) ⟨R, S.known⟩
  | error e =>
    have refused : runWithin 0 (Host.removeEdge · source target) sh.machine = .error e sh.machine :=
      Host.removeEdge_of_error run
    exact ends_of_error (quietly_of_error refused) (.of_same S rfl)

/-- A change of the settings is made, or refused without any change. -/
theorem lawful_configure {f : Collector → Except Fault Collector}
    (retunes : ∀ {c c' sc}, sc.saving → f c = .ok c' → c.Reconfigured sc c' ∧
      c'.callbacks = c.callbacks) : Lawful (quietly (Host.configure f)) := by
  intro sh S
  rcases Host.configure_cases f sh.machine with ⟨e, refused⟩ | ⟨c, c', hc, run, configured⟩
  · exact ends_of_error (quietly_of_error refused) (.of_same S rfl)
  · obtain ⟨reconfigured, callbacks⟩ :=
      @retunes c c' (sh.machine.linkScope (.ask .roots)) trivial run
    exact ends_of_ok (quietly_of_ok configured)
      ⟨S.rests.configure hc reconfigured callbacks, S.known⟩

theorem lawful_setThresholds (counts : PerGeneration Nat) :
    Lawful (quietly (Host.setThresholds counts)) := by
  refine lawful_configure fun {c c' sc} _ run => ?_
  obtain ⟨t, ht, run⟩ := Heap.exists_of_bind run
  obtain ⟨thresholds, -, ht⟩ := Heap.exists_of_bind ht
  cases ht
  cases run
  exact ⟨⟨rfl, rfl, rfl, rfl, rfl, rfl, fun _ => .inl, .inl⟩, rfl⟩

theorem lawful_setEnabled (enabled : Bool) : Lawful (quietly (Host.setEnabled enabled)) := by
  refine lawful_configure fun {c c' sc} _ run => ?_
  cases run
  exact ⟨⟨rfl, rfl, rfl, rfl, rfl, rfl, fun _ => .inl, .inl⟩, rfl⟩

theorem lawful_setDebug (flags : DebugFlags) : Lawful (quietly (Host.setDebug flags)) := by
  refine lawful_configure fun {c c' sc} saving run => ?_
  cases run
  exact ⟨⟨rfl, rfl, rfl, rfl, rfl, rfl, fun _ => .inl, fun _ => .inr saving⟩, rfl⟩

theorem lawful_setPolicy (policy : ResurrectionPolicy) :
    Lawful (quietly (Host.setPolicy policy)) := by
  refine lawful_configure fun {c c' sc} _ run => ?_
  cases run
  exact ⟨⟨rfl, rfl, rfl, rfl, rfl, rfl, fun _ => .inl, .inl⟩, rfl⟩

theorem sure_print (text : String) : Sure (print text) := fun _ S =>
  ends_of_ok rfl ⟨S.rests.congr rfl, S.known⟩

/-- A new object is bound to a name, whatever passes its allocation starts. -/
theorem sure_new (line : Int) (name : String) (kind : Kind) (typeName : String) :
    Sure (run line (.new name kind typeName)) := by
  intro sh S
  obtain ⟨m, allocated, R⟩ := S.rests.allocate kind typeName
  have ends : Ends (onMachine (Host.allocate · kind typeName)) sh
      (fun y sh' => y = sh.machine.memory.heap.nextId ∧ sh' = { sh with machine := m })
      fun _ _ => False := ends_of_ok (quietly_of_ok allocated) ⟨rfl, rfl⟩
  refine ends.bind (fun y sh' same => ?_) fun _ _ => id
  obtain ⟨rfl, rfl⟩ := same
  exact @bindName_ends { sh with machine := m } _ R S.known name

/-- A name is bound to what another one was last bound to, unless that is dead. -/
theorem bind_ends (S : sh.Sound) (line : Int) (name other : String) :
    Ends (run line (.bind name other)) sh (fun _ sh' => sh'.Sound) fun e sh' => sh' = sh ∧
      (sh.names[other]? = none ∧ e = .command (.unknownName other) (-1) ∨
        ∃ x, sh.names[other]? = some x ∧ sh.machine.memory.heap.get? x = none ∧
          e = .invalidReference x .unknown) := by
  refine (lookup_ends other sh).bind (fun x sh' found => ?_) fun e sh' unknown =>
    ⟨unknown.1, .inl unknown.2⟩
  obtain ⟨rfl, known⟩ := found
  cases run : sh'.machine.memory.heap.retain x with
  | ok h =>
    -- the reference that is obtained here is the one that the name takes over
    have ends : Ends (quietly (Host.retain x)) sh'
        (fun _ sh'' => sh'' = { sh' with machine := sh'.machine.withHeap h }) fun _ _ => False :=
      ends_of_ok (quietly_of_ok (Act.edit_of_ok run)) rfl
    refine ends.bind (fun _ sh'' same => ?_) fun _ _ => False.elim
    subst same
    exact (@bindName_ends { sh' with machine := sh'.machine.withHeap h } _ (S.rests.retain run)
      S.known name).mono (fun _ _ => id) fun _ _ => False.elim
  | error e =>
    have ends : Ends (quietly (Host.retain x)) sh' (fun _ _ => False)
        fun e' sh'' => e' = e ∧ sh'' = sh' :=
      ends_of_error (quietly_of_error (Act.edit_of_error run)) ⟨rfl, rfl⟩
    refine ends.bind (fun _ _ => False.elim) fun e' sh'' same => ⟨same.2, .inr ⟨x, known, ?_⟩⟩
    rw [same.1]
    exact Heap.dead_of_retain run

theorem lawful_collect (i : Int) : Lawful (onMachine (Host.collect · i)) := by
  intro sh S
  rcases S.rests.collect_cases i with ⟨e, refused⟩ | ⟨outcome, m, R, done | reported⟩
  · exact ends_of_error (quietly_of_error refused) (.of_same S rfl)
  · exact ends_of_ok (quietly_of_ok done) ⟨R, S.known⟩
  · exact ends_of_error (quietly_of_error reported)
      ⟨⟨R, S.known⟩, fun other => absurd rfl (other _ _)⟩

theorem sure_clearGarbage (line : Int) : Sure (run line .clearGarbage) := by
  have released : Sure (onMachine Host.clearGarbage) := fun sh S => by
    obtain ⟨count, m, cleared, R⟩ := S.rests.clearGarbage
    exact ends_of_ok (quietly_of_ok cleared) ⟨R, S.known⟩
  exact (sure_print _).bind fun _ => released.bind fun _ => sure_print _

/-- Every command is lawful. -/
theorem run_lawful (line : Int) (command : Command) : Lawful (run line command) := by
  cases command with
  | new name kind typeName => exact (sure_new line name kind typeName).lawful
  | bind name other =>
    intro sh S
    refine (bind_ends S line name other).mono (fun _ _ => id) fun e sh' failed => ?_
    exact .of_same S failed.1
  | del name =>
    intro sh S
    refine (unbindName_ends S name).mono (fun _ _ => id) fun e sh' failed => ?_
    exact .of_same S failed.2.2
  | link source target =>
    exact (reads_lookup _).bind_lawful fun _ => (reads_lookup _).bind_lawful fun _ =>
      lawful_addEdge _ _
  | unlink source target =>
    exact (reads_lookup _).bind_lawful fun _ => (reads_lookup _).bind_lawful fun _ =>
      lawful_removeEdge _ _
  | finalizer name word =>
    refine (reads_lookup name).bind_lawful fun y => ?_
    match word with
    | .log => exact lawful_setFinalizer y name none
    | .resurrect none => exact (reads_throw _).lawful
    | .resurrect (some holder) =>
      exact (reads_lookup holder).bind_lawful fun holder =>
        lawful_setFinalizer y name (some holder)
    | .unknown => exact (reads_throw _).lawful
  | collect generation =>
    have noted (collected : Nat) : Sure (modify fun sh : Shell =>
        { sh with lastCollected := collected } : ShellAct Unit) := fun sh S =>
      ends_of_ok rfl ⟨S.rests, S.known⟩
    exact (lawful_collect _).bind_sure fun collected => (noted collected).bind fun _ => sure_print _
  | enable => exact lawful_setEnabled true
  | disable => exact lawful_setEnabled false
  | threshold counts => exact lawful_setThresholds counts
  | debug flags => exact lawful_setDebug flags
  | policy policy => exact lawful_setPolicy policy
  | describe name =>
    exact Reads.lawful <| (reads_print _).bind fun _ => (reads_lookup name).bind fun _ =>
      (reads_quietly Act.still_heap).bind fun _ => reads_print _
  | tracked =>
    exact Reads.lawful <| (reads_quietly Act.still_memory).bind fun _ =>
      (reads_quietly Act.still_collector).bind fun _ => reads_print _
  | count | garbage =>
    exact Reads.lawful <| (reads_quietly Act.still_collector).bind fun _ => reads_print _
  | stats =>
    exact Reads.lawful <| (reads_quietly Act.still_collector).bind fun _ =>
      (reads_quietly Act.still_heap).bind fun _ => (reads_print _).bind fun _ => reads_print _
  | clearGarbage => exact (sure_clearGarbage line).lawful
  | expectCollected count =>
    exact Reads.lawful <| reads_get.bind fun _ => reads_expect _ _ _
  | expectTracked name written generation =>
    exact Reads.lawful <| (reads_lookup name).bind fun _ =>
      (reads_quietly Act.still_collector).bind fun _ => reads_expect _ _ _
  | expectLiveness name alive =>
    refine Reads.lawful <| (reads_lookup name).bind fun _ =>
      (reads_quietly Act.still_heap).bind fun h => ?_
    match alive with
    | some true => exact reads_expect _ _ _
    | some false => exact reads_expect _ _ _
    | none => exact reads_throw _

/-- What has been read of a line is run, or refused with what is wrong with it. -/
theorem lawful_of_parsed (line : Int) (parsed : Except Fault Command) :
    Lawful (match parsed with
      | .ok command => run line command
      | .error e => throw e) := by
  cases parsed with
  | ok command => exact run_lawful line command
  | error e => exact (reads_throw e).lawful

/-- So is every line. -/
theorem execute_lawful (text : String) (line : Int) : Lawful (execute text line) := by
  have fresh : Reads (modify fun sh : Shell => { sh with machine.journal := [] } : ShellAct Unit) :=
    fun sh => ⟨_, _, rfl⟩
  refine fresh.bind_lawful fun _ => ?_
  cases Text.words text with
  | nil => exact (reads_pure ()).lawful
  | cons name arguments =>
    refine reads_get.bind_lawful fun sh => ?_
    have command := lawful_of_parsed line (Command.ofWords line name arguments)
    cases sh.echo with
    | true => exact (reads_print _).bind_lawful fun _ => command
    | false => exact command

/-- The shell when a line that says something begins to be carried out. -/
def opened (sh : Shell) (text : String) : Shell where
  __ := sh
  machine := {
    sh.machine with
    journal := []
    console := if sh.echo then sh.machine.console.print s!"> {text}\n" else sh.machine.console }

/-- A line that can be read as a command runs it. -/
theorem execute_of_command {text : String} {line : Int} {arguments : List String}
    {command : Command} (words : Text.words text = name :: arguments)
    (parsed : Command.ofWords line name arguments = .ok command) :
    execute text line sh = run line command (sh.opened text) := by
  obtain ⟨machine, bindings, names, lastCollected, echo⟩ := sh
  unfold execute opened
  simp only [words, parsed]
  cases echo <;> rfl

/-- A line without words does nothing but to begin. -/
theorem execute_of_blank {text : String} {line : Int} (blank : Text.words text = []) :
    execute text line sh = .ok () { sh with machine.journal := [] } := by
  unfold execute
  simp only [blank]
  rfl

/-- A line that cannot be read is refused for what is wrong with it. -/
theorem execute_of_fault {text : String} {line : Int} {arguments : List String} {fault : Fault}
    (words : Text.words text = name :: arguments)
    (refused : Command.ofWords line name arguments = .error fault) :
    execute text line sh = .error fault (sh.opened text) := by
  obtain ⟨machine, bindings, names, lastCollected, echo⟩ := sh
  unfold execute opened
  simp only [words, refused]
  cases echo <;> rfl

/-- The shell when a collect command has noted what was collected and said so. -/
def noted (sh : Shell) (m : Machine) (collected : Nat) : Shell where
  __ := sh
  machine := { m with console := m.console.print s!"collected {collected}\n" }
  lastCollected := collected

section Collect

variable {line : Int} {generation : Option Generation} {m : Machine}

/-- What the shell does when a collection has succeeded. -/
theorem run_collect_of_ok {collected : Nat}
    (done : runWithin 0 (Host.collect · (generation.getD .oldest).val) sh.machine =
      .ok collected m) :
    run line (.collect generation) sh = .ok () (sh.noted m collected) := by
  have collects : onMachine (Host.collect · (generation.getD .oldest).val) sh =
      .ok collected { sh with machine := m } := quietly_of_ok done
  show EStateM.bind _ _ sh = _
  rw [EStateM.bind, collects]
  rfl

theorem run_collect_of_error {fault : Fault}
    (failed : runWithin 0 (Host.collect · (generation.getD .oldest).val) sh.machine =
      .error fault m) :
    run line (.collect generation) sh = .error fault { sh with machine := m } := by
  have collects : onMachine (Host.collect · (generation.getD .oldest).val) sh =
      .error fault { sh with machine := m } := quietly_of_error failed
  show EStateM.bind _ _ sh = _
  rw [EStateM.bind, collects]

end Collect

/-- The faults that commands about references of the shell may end with. A new object can always be
bound and saved garbage can always be given back. A name can be unbound if it is bound, and it can
be bound to what another name was last bound to if that is alive. -/
def MayFail (sh : Shell) : Command → Fault → Prop
  | .new _ _ _, _ => False
  | .clearGarbage, _ => False
  | .del name, fault => sh.bindings[name]? = none ∧ fault = .command (.notBound name) (-1)
  | .bind _ other, fault =>
      (sh.names[other]? = none ∧ fault = .command (.unknownName other) (-1)) ∨
        ∃ x, sh.names[other]? = some x ∧ sh.machine.memory.heap.get? x = none ∧
          fault = .invalidReference x .unknown
  | _, _ => True

theorem Sound.mayFail (S : sh.Sound) {line : Int} {command : Command} {fault : Fault}
    (failed : run line command sh = .error fault sh') : sh.MayFail command fault := by
  have of_ends {P : Unit → Shell → Prop} {E : Fault → Shell → Prop}
      (ends : Ends (run line command) sh P E) : E fault sh' := by
    unfold Ends at ends
    rwa [failed] at ends
  cases command with
  | new name kind typeName => exact of_ends (sure_new line name kind typeName sh S)
  | clearGarbage => exact of_ends (sure_clearGarbage line sh S)
  | del name =>
    obtain ⟨free, cause, -⟩ := of_ends (unbindName_ends S name)
    exact ⟨free, cause⟩
  | bind name other => exact (of_ends (bind_ends S line name other)).2
  | _ => trivial

end Shell

end Reclaim
