import Reclaim.Run
import Reclaim.Proofs.Edits

/-!
# Running actions

What the primitive actions do to a machine, as equations that execute an action step by step. A
fault leaves the machine as it was when the fault arose, so an action has a machine afterwards
whatever its outcome is; `Act.Always` speaks about that one.
-/

set_option autoImplicit false

namespace Reclaim

namespace Machine

/-- The machine with another heap. -/
def withHeap (s : Machine) (h : Heap) : Machine := { s with memory.heap := h }

/-- The machine with another memory. -/
def withMemory (s : Machine) (m : Memory) : Machine := { s with memory := m }

/-- The machine with its collector changed, if it has one. -/
def mapCollector (s : Machine) (f : Collector → Collector) : Machine :=
  { s with memory.collector := s.memory.collector.map f }

/-- The machine with an event added to its journal. -/
def log (s : Machine) (event : Event) : Machine :=
  { s with journal := ⟨event, s.memory⟩ :: s.journal }

/-- The machine with a notice added to its console. -/
def post (s : Machine) (notice : Notice) : Machine := { s with console := s.console.post notice }

variable (s : Machine) (h h' : Heap)

@[simp] theorem withHeap_heap : (s.withHeap h).memory.heap = h := rfl

@[simp] theorem withHeap_withHeap : (s.withHeap h).withHeap h' = s.withHeap h' := rfl

@[simp] theorem withMemory_memory (m : Memory) : (s.withMemory m).memory = m := rfl

@[simp] theorem log_memory (event : Event) : (s.log event).memory = s.memory := rfl

end Machine

namespace Act

variable {α β : Type} {act : Act α} {s s' : Machine}

@[simp] theorem bind_apply (act : Act α) (f : α → Act β) (s : Machine) :
    (act >>= f) s = match act s with
      | .ok a s' => f a s'
      | .error e s' => .error e s' := by
  show EStateM.bind act f s = _
  unfold EStateM.bind
  cases act s <;> rfl

@[simp] theorem pure_apply (a : α) (s : Machine) : (pure a : Act α) s = .ok a s := rfl

@[simp] theorem throw_apply (e : Fault) (s : Machine) : (throw e : Act α) s = .error e s := rfl

@[simp] theorem get_apply (s : Machine) : (get : Act Machine) s = .ok s s := rfl

@[simp] theorem modify_apply (f : Machine → Machine) (s : Machine) :
    (modify f : Act Unit) s = .ok () (f s) := rfl

@[simp] theorem attempt_apply (act : Act α) (s : Machine) :
    attempt act s = match act s with
      | .ok a s' => .ok (.ok a) s'
      | .error e s' => .ok (.error e) s' := rfl

@[simp] theorem memory_apply (s : Machine) : memory s = .ok s.memory s := rfl

@[simp] theorem heap_apply (s : Machine) : heap s = .ok s.memory.heap s := rfl

@[simp] theorem setMemory_apply (m : Memory) (s : Machine) :
    setMemory m s = .ok () (s.withMemory m) := rfl

@[simp] theorem setHeap_apply (h : Heap) (s : Machine) : setHeap h s = .ok () (s.withHeap h) := rfl

@[simp] theorem modifyCollector_apply (f : Collector → Collector) (s : Machine) :
    modifyCollector f s = .ok () (s.mapCollector f) := rfl

@[simp] theorem record_apply (event : Event) (s : Machine) :
    record event s = .ok () (s.log event) := rfl

@[simp] theorem post_apply (notice : Notice) (s : Machine) :
    Act.post notice s = .ok () (s.post notice) := rfl

@[simp] theorem ofExcept_ok (a : α) (s : Machine) : ofExcept (.ok a) s = .ok a s := rfl

@[simp] theorem ofExcept_error (e : Fault) (s : Machine) :
    (ofExcept (.error e) : Act α) s = .error e s := rfl

theorem edit_of_ok {f : Heap → Except Fault Heap} {h : Heap} (run : f s.memory.heap = .ok h) :
    edit f s = .ok () (s.withHeap h) := by
  simp [edit, run]

theorem edit_of_error {f : Heap → Except Fault Heap} {e : Fault}
    (run : f s.memory.heap = .error e) : edit f s = .error e s := by
  simp [edit, run]

theorem editWith_of_ok {f : Heap → Except Fault (α × Heap)} {a : α} {h : Heap}
    (run : f s.memory.heap = .ok (a, h)) : editWith f s = .ok a (s.withHeap h) := by
  simp only [editWith, bind_apply, heap_apply, run, ofExcept_ok]
  rfl

theorem collector_of_some {c : Collector} (hc : s.memory.collector = some c) :
    collector s = .ok c s := by
  simp [collector, hc]

theorem collector_of_none (hc : s.memory.collector = none) :
    collector s = .error .collectorMissing s := by
  simp [collector, hc]

/-- If an action that goes on after another one succeeds, so does the first one. -/
theorem exists_of_bind {f : α → Act β} {b : β} (run : (act >>= f) s = .ok b s') :
    ∃ a s₁, act s = .ok a s₁ ∧ f a s₁ = .ok b s' := by
  rw [bind_apply] at run
  cases first : act s with
  | ok a s₁ =>
    rw [first] at run
    exact ⟨a, s₁, rfl, run⟩
  | error e s₁ =>
    rw [first] at run
    cases run

/-- Two actions that begin alike, and go on alike from where the first part has ended, are alike. -/
theorem bind_congr {act' : Act α} {f f' : α → Act β} (first : act s = act' s)
    (next : ∀ a s', act' s = .ok a s' → f a s' = f' a s') :
    (act >>= f) s = (act' >>= f') s := by
  rw [bind_apply, bind_apply, first]
  cases run : act' s with
  | ok a s' => exact next a s' run
  | error e s' => rfl

/-- What is seen of the machine after an action, if that succeeds. -/
def view? (act : Act α) (s : Machine) (view : Machine → β) : Option β :=
  match act s with
  | .ok _ s' => some (view s')
  | .error _ _ => none

theorem exists_of_view? {view : Machine → β} {b : β} (seen : act.view? s view = some b) :
    ∃ a s', act s = .ok a s' ∧ view s' = b := by
  unfold view? at seen
  cases run : act s with
  | ok a s' =>
    rw [run] at seen
    exact ⟨a, s', rfl, Option.some.inj seen⟩
  | error e s' =>
    rw [run] at seen
    cases seen

/-- The machine after an action has a property, whether the action succeeds or not. -/
def Always (act : Act α) (s : Machine) (P : Machine → Prop) : Prop :=
  match act s with
  | .ok _ s' => P s'
  | .error _ s' => P s'

theorem always_of_ok {P : Machine → Prop} {a : α} (run : act s = .ok a s') (h : P s') :
    act.Always s P := by
  unfold Always
  rw [run]
  exact h

theorem always_of_error {P : Machine → Prop} {e : Fault} (run : act s = .error e s') (h : P s') :
    act.Always s P := by
  unfold Always
  rw [run]
  exact h

theorem Always.of_eq {P : Machine → Prop} {act' : Act α} {t : Machine} (same : act s = act' t)
    (h : act'.Always t P) : act.Always s P := by
  unfold Always at h ⊢
  rwa [same]

theorem Always.mono {P Q : Machine → Prop} (h : act.Always s P) (imp : ∀ s', P s' → Q s') :
    act.Always s Q := by
  unfold Always at h ⊢
  cases run : act s with
  | ok a s' =>
    rw [run] at h
    exact imp s' h
  | error e s' =>
    rw [run] at h
    exact imp s' h

theorem Always.and {P Q : Machine → Prop} (left : act.Always s P) (right : act.Always s Q) :
    act.Always s fun s' => P s' ∧ Q s' := by
  unfold Always at left right ⊢
  cases run : act s with
  | ok a s' =>
    rw [run] at left right
    exact ⟨left, right⟩
  | error e s' =>
    rw [run] at left right
    exact ⟨left, right⟩

/-- An action that goes on after another one if that succeeds. -/
theorem Always.bind {P Q : Machine → Prop} {f : α → Act β} (h : act.Always s P)
    (ok : ∀ a s', act s = .ok a s' → P s' → (f a).Always s' Q)
    (error : ∀ e s', act s = .error e s' → P s' → Q s') : (act >>= f).Always s Q := by
  unfold Always at h ⊢
  rw [bind_apply]
  cases run : act s with
  | ok a s' =>
    rw [run] at h
    exact ok a s' run h
  | error e s' =>
    rw [run] at h
    exact error e s' run h

theorem exists_attempt (act : Act α) (s : Machine) :
    ∃ outcome s', attempt act s = .ok outcome s' := by
  rw [attempt_apply]
  cases act s with
  | ok a s' => exact ⟨.ok a, s', rfl⟩
  | error e s' => exact ⟨.error e, s', rfl⟩

/-- Running an action to its end makes a value of its outcome. -/
theorem attempt_of_always {P : Machine → Prop} (h : act.Always s P) :
    ∃ outcome s', attempt act s = .ok outcome s' ∧ P s' := by
  unfold Always at h
  rw [attempt_apply]
  cases run : act s with
  | ok a s' =>
    rw [run] at h
    exact ⟨.ok a, s', rfl, h⟩
  | error e s' =>
    rw [run] at h
    exact ⟨.error e, s', rfl, h⟩

end Act

end Reclaim
