import HotStuffRs.Kv.Batch

namespace HotStuffRs
namespace Kv

variable {A M ε α β : Type} {K : Type} {V : K → Type}

/-- An effect of a process: an action on its surroundings, or a batch written to
its store. -/
inductive Effect (A : Type) (V : K → Type)
  | act (a : A)
  | write (wb : Batch V)

namespace Store

variable [DecidableEq K]

def perform (s : Store V) : Effect A V → Store V
  | .act _ => s
  | .write wb => s.write wb

/-- The store after some effects, of which it only sees the writes. -/
def replay (s : Store V) (effects : List (Effect A V)) : Store V := effects.foldl perform s

@[simp] theorem replay_nil (s : Store V) : s.replay ([] : List (Effect A V)) = s := rfl

theorem replay_append (s : Store V) (xs ys : List (Effect A V)) :
    s.replay (xs ++ ys) = (s.replay xs).replay ys :=
  List.foldl_append

@[simp] theorem replay_singleton (s : Store V) (e : Effect A V) : s.replay [e] = s.perform e := rfl

@[simp] theorem perform_act (s : Store V) (a : A) : s.perform (.act a : Effect A V) = s := rfl

@[simp] theorem perform_write (s : Store V) (wb : Batch V) :
    s.perform (.write wb : Effect A V) = s.write wb := rfl

/-- Whether every write among some effects passes a check on the store it is made to. -/
def checkWrites (check : Store V → Batch V → Bool) (s : Store V) : List (Effect A V) → Bool
  | [] => true
  | .act _ :: effects => checkWrites check s effects
  | .write wb :: effects => check s wb && checkWrites check (s.write wb) effects

theorem check_of_checkWrites {check : Store V → Batch V → Bool} {s : Store V}
    {before rest : List (Effect A V)} {wb : Batch V}
    (h : checkWrites check s (before ++ .write wb :: rest) = true) :
    check (s.replay before) wb = true := by
  induction before generalizing s with
  | nil =>
    rw [List.nil_append, checkWrites, Bool.and_eq_true] at h
    exact h.1
  | cons e before ih =>
    cases e with
    | act a => exact ih h
    | write wb' =>
      rw [List.cons_append, checkWrites, Bool.and_eq_true] at h
      exact ih h.2

end Store

/-- A running process: what it holds in memory, the store as it was at the start,
and the effects so far, oldest first.  A crash can cut the effects anywhere and
loses the memory. -/
structure World (M A : Type) (V : K → Type) where
  mem : M
  base : Store V
  effects : List (Effect A V)

namespace World

def tree [DecidableEq K] (w : World M A V) : Store V := w.base.replay w.effects

def emit (w : World M A V) (e : Effect A V) : World M A V :=
  { w with effects := w.effects ++ [e] }

def setMem (w : World M A V) (m : M) : World M A V := { w with mem := m }

@[simp] theorem mem_emit (w : World M A V) (e : Effect A V) : (w.emit e).mem = w.mem := rfl

@[simp] theorem base_emit (w : World M A V) (e : Effect A V) : (w.emit e).base = w.base := rfl

@[simp] theorem effects_emit (w : World M A V) (e : Effect A V) :
    (w.emit e).effects = w.effects ++ [e] := rfl

@[simp] theorem mem_setMem (w : World M A V) (m : M) : (w.setMem m).mem = m := rfl

@[simp] theorem base_setMem (w : World M A V) (m : M) : (w.setMem m).base = w.base := rfl

@[simp] theorem effects_setMem (w : World M A V) (m : M) : (w.setMem m).effects = w.effects := rfl

@[simp] theorem tree_setMem [DecidableEq K] (w : World M A V) (m : M) : (w.setMem m).tree = w.tree := rfl

@[simp] theorem tree_emit [DecidableEq K] (w : World M A V) (e : Effect A V) :
    (w.emit e).tree = w.tree.perform e :=
  Store.replay_append ..

end World

/-- Code of a process that can fail, keeping the effects it had until then. -/
abbrev Process (ε M A : Type) (V : K → Type) (α : Type) := EStateM ε (World M A V) α

namespace Process

/-- The current store. -/
def store [DecidableEq K] : Process ε M A V (Store V) := fun w => .ok w.tree w

def mem : Process ε M A V M := fun w => .ok w.mem w

def setMem (m : M) : Process ε M A V Unit := fun w => .ok () (w.setMem m)

def emit (e : Effect A V) : Process ε M A V Unit := fun w => .ok () (w.emit e)

def act (a : A) : Process ε M A V Unit := emit (.act a)

def write (wb : Batch V) : Process ε M A V Unit := emit (.write wb)

def lift : Except ε α → Process ε M A V α
  | .ok a => fun w => .ok a w
  | .error e => fun w => .error e w

/-- Run `m` on a part of the memory. -/
def zoom {N : Type} (get : M → N) (set : N → M → M) (m : Process ε N A V α) :
    Process ε M A V α := fun w =>
  match m { mem := get w.mem, base := w.base, effects := w.effects } with
  | .ok a w' => .ok a { mem := set w'.mem w.mem, base := w'.base, effects := w'.effects }
  | .error e w' => .error e { mem := set w'.mem w.mem, base := w'.base, effects := w'.effects }

/-! ## Running -/

theorem mem_bind_run (f : M → Process ε M A V β) (w : World M A V) :
    (mem >>= f) w = f w.mem w := rfl

theorem store_bind_run [DecidableEq K] (f : Store V → Process ε M A V β) (w : World M A V) :
    (store >>= f) w = f w.tree w := rfl

theorem mem_run (w : World M A V) : (mem : Process ε M A V M) w = .ok w.mem w := rfl

theorem store_run [DecidableEq K] (w : World M A V) :
    (store : Process ε M A V _) w = .ok w.tree w := rfl

theorem setMem_run (m : M) (w : World M A V) :
    (setMem m : Process ε M A V _) w = .ok () (w.setMem m) := rfl

theorem write_run (wb : Batch V) (w : World M A V) :
    (write wb : Process ε M A V _) w = .ok () (w.emit (.write wb)) := rfl

theorem lift_ok (a : α) (w : World M A V) :
    (lift (.ok a) : Process ε M A V α) w = .ok a w := rfl

theorem lift_ok_bind_run (a : α) (f : α → Process ε M A V β) (w : World M A V) :
    (lift (.ok a) >>= f) w = f a w := rfl

theorem lift_error_bind_run (e : ε) (f : α → Process ε M A V β) (w : World M A V) :
    (lift (.error e) >>= f) w = .error e w := rfl

/-! ## Weakest preconditions -/

/-- `Q` holds where `m` ends normally, and `E` where it fails. -/
def wp (m : Process ε M A V α) (Q : α → World M A V → Prop) (E : World M A V → Prop)
    (w : World M A V) : Prop :=
  match m w with
  | .ok a w' => Q a w'
  | .error _ w' => E w'

variable {Q : α → World M A V → Prop} {E : World M A V → Prop} {w : World M A V}

theorem wp_pure (a : α) : wp (pure a : Process ε M A V α) Q E w ↔ Q a w := Iff.rfl

theorem wp_bind {Q : β → World M A V → Prop} (m : Process ε M A V α)
    (f : α → Process ε M A V β) :
    wp (m >>= f) Q E w ↔ wp m (fun a w' => wp (f a) Q E w') E w := by
  have h : (m >>= f) w = EStateM.bind m f w := rfl
  unfold wp
  rw [h, EStateM.bind]
  cases m w <;> rfl

theorem wp_throw (e : ε) : wp (throw e : Process ε M A V α) Q E w ↔ E w := Iff.rfl

theorem wp_store [DecidableEq K] {Q : Store V → World M A V → Prop} :
    wp (store : Process ε M A V _) Q E w ↔ Q w.tree w := Iff.rfl

theorem wp_mem {Q : M → World M A V → Prop} :
    wp (mem : Process ε M A V _) Q E w ↔ Q w.mem w := Iff.rfl

theorem wp_setMem {Q : Unit → World M A V → Prop} (m : M) :
    wp (setMem m : Process ε M A V _) Q E w ↔ Q () (w.setMem m) := Iff.rfl

theorem wp_act {Q : Unit → World M A V → Prop} (a : A) :
    wp (act a : Process ε M A V _) Q E w ↔ Q () (w.emit (.act a)) := Iff.rfl

theorem wp_write {Q : Unit → World M A V → Prop} (wb : Batch V) :
    wp (write wb : Process ε M A V _) Q E w ↔ Q () (w.emit (.write wb)) := Iff.rfl

theorem wp_lift (x : Except ε α) :
    wp (lift x : Process ε M A V α) Q E w ↔
      (∀ a, x = .ok a → Q a w) ∧ (∀ e, x = .error e → E w) := by
  cases x with
  | ok a => exact ⟨fun h => ⟨fun a' ha => Except.ok.inj ha ▸ h, fun e he => nomatch he⟩,
      fun h => h.1 a rfl⟩
  | error e => exact ⟨fun h => ⟨fun a' ha => (nomatch ha), fun _ _ => h⟩, fun h => h.2 e rfl⟩

theorem wp_ite (c : Prop) [Decidable c] (a b : Process ε M A V α) :
    wp (if c then a else b) Q E w ↔ if c then wp a Q E w else wp b Q E w := by
  split <;> rfl

/-- Two checks, of which the second is made only if the first holds. -/
theorem wp_both {x y : Except ε Bool} {f : Bool → Process ε M A V α} (herror : E w)
    (htrue : x = .ok true → y = .ok true → wp (f true) Q E w) (hfalse : wp (f false) Q E w) :
    wp (do
      let a ← lift x
      let b ← if a then lift y else pure false
      f b) Q E w := by
  rw [wp_bind, wp_lift]
  refine ⟨fun a hx => ?_, fun _ _ => herror⟩
  cases a with
  | false => exact hfalse
  | true =>
    show wp (lift y >>= f) Q E w
    rw [wp_bind, wp_lift]
    refine ⟨fun b hy => ?_, fun _ _ => herror⟩
    cases b with
    | false => exact hfalse
    | true => exact htrue hx hy

theorem wp_zoom {N : Type} (get : M → N) (set : N → M → M) (m : Process ε N A V α) :
    wp (zoom get set m) Q E w ↔
      wp m (fun a w' => Q a { mem := set w'.mem w.mem, base := w'.base, effects := w'.effects })
        (fun w' => E { mem := set w'.mem w.mem, base := w'.base, effects := w'.effects })
        { mem := get w.mem, base := w.base, effects := w.effects } := by
  unfold wp zoom
  cases m { mem := get w.mem, base := w.base, effects := w.effects } <;> rfl

theorem wp_mono {Q' : α → World M A V → Prop} {E' : World M A V → Prop}
    {m : Process ε M A V α} (h : wp m Q E w) (hQ : ∀ a w', Q a w' → Q' a w')
    (hE : ∀ w', E w' → E' w') : wp m Q' E' w := by
  unfold wp at h ⊢
  cases hm : m w with
  | ok a w' =>
    rw [hm] at h
    exact hQ a w' h
  | error e w' =>
    rw [hm] at h
    exact hE w' h

theorem wp_and {Q' : α → World M A V → Prop} {E' : World M A V → Prop} {m : Process ε M A V α}
    (h : wp m Q E w) (h' : wp m Q' E' w) :
    wp m (fun a w' => Q a w' ∧ Q' a w') (fun w' => E w' ∧ E' w') w := by
  unfold wp at h h' ⊢
  cases hm : m w with
  | ok a w' =>
    rw [hm] at h h'
    exact ⟨h, h'⟩
  | error e w' =>
    rw [hm] at h h'
    exact ⟨h, h'⟩

theorem wp_ok {m : Process ε M A V α} (h : wp m Q E w) {a : α} {w' : World M A V}
    (hm : m w = .ok a w') : Q a w' := by
  unfold wp at h
  rw [hm] at h
  exact h

theorem wp_error {m : Process ε M A V α} (h : wp m Q E w) {e : ε} {w' : World M A V}
    (hm : m w = .error e w') : E w' := by
  unfold wp at h
  rw [hm] at h
  exact h

theorem wp_true (m : Process ε M A V α) (w : World M A V) :
    wp m (fun _ _ => True) (fun _ => True) w := by
  unfold wp
  cases m w <;> trivial

/-- The world in which `m` ends is the one that running `m` gives. -/
theorem wp_and_run {m : Process ε M A V α} (h : wp m Q E w) :
    wp m (fun a w' => Q a w' ∧ m w = .ok a w') E w := by
  unfold wp at h ⊢
  cases hm : m w with
  | ok a w' =>
    rw [hm] at h
    exact ⟨h, rfl⟩
  | error e w' =>
    rw [hm] at h
    exact h

/-! ## Failures -/

/-- Wherever `m` fails, its failure is in `F`. -/
def FailsIn (F : ε → Prop) (m : Process ε M A V α) (w : World M A V) : Prop :=
  ∀ e w', m w = .error e w' → F e

variable {F : ε → Prop}

/-- `m` ends normally. -/
def Succeeds (m : Process ε M A V α) (w : World M A V) : Prop := ∃ a w', m w = .ok a w'

theorem succeeds_of_ok {m : Process ε M A V α} {a : α} {w' : World M A V} (h : m w = .ok a w') :
    Succeeds m w := ⟨a, w', h⟩

theorem succeeds_bind_iff {m : Process ε M A V α} {f : α → Process ε M A V β} {a : α}
    {w' : World M A V} (h : m w = .ok a w') : Succeeds (m >>= f) w ↔ Succeeds (f a) w' := by
  have hbind : (m >>= f) w = f a w' := by
    show EStateM.bind m f w = f a w'
    rw [EStateM.bind, h]
  unfold Succeeds
  rw [hbind]

theorem not_succeeds_lift_bind {e : ε} (f : α → Process ε M A V β) :
    ¬Succeeds (lift (.error e) >>= f) w := fun ⟨_, _, h⟩ => nomatch h

/-- `m` keeps `P`, and leaves `E` where it fails. -/
def Keeps (P E : World M A V → Prop) (m : Process ε M A V α) : Prop :=
  ∀ w, P w → wp m (fun _ => P) E w

namespace Keeps

variable {P E : World M A V → Prop}

theorem pure (a : α) : Keeps P E (Pure.pure a : Process ε M A V α) := fun _ h => h

theorem bind {m : Process ε M A V α} {f : α → Process ε M A V β} (hm : Keeps P E m)
    (hf : ∀ a, Keeps P E (f a)) : Keeps P E (m >>= f) := by
  intro w h
  rw [wp_bind]
  exact wp_mono (hm w h) (fun a w' => hf a w') fun _ => id

theorem mem : Keeps P E (Process.mem : Process ε M A V _) := fun _ h => h

/-- As `bind` with `mem`, when it matters what `P` says of the memory. -/
theorem bind_mem {f : M → Process ε M A V β} (hf : ∀ w, P w → Keeps P E (f w.mem)) :
    Keeps P E (Process.mem >>= f) := by
  intro w h
  rw [wp_bind]
  exact hf w h w h

theorem setMem {m : M} (hm : ∀ w, P w → P (w.setMem m)) :
    Keeps P E (Process.setMem m : Process ε M A V _) := fun w h => hm w h

theorem store [DecidableEq K] : Keeps P E (Process.store : Process ε M A V _) := fun _ h => h

theorem lift (hE : ∀ w, P w → E w) (x : Except ε α) :
    Keeps P E (Process.lift x : Process ε M A V α) :=
  fun w h => (wp_lift x).mpr ⟨fun _ _ => h, fun _ _ => hE w h⟩

/-- As `bind` with `lift`, when it matters what is lifted. -/
theorem lift_bind (hE : ∀ w, P w → E w) {x : Except ε α} {f : α → Process ε M A V β}
    (hf : ∀ a, x = .ok a → Keeps P E (f a)) : Keeps P E (Process.lift x >>= f) := by
  intro w h
  rw [wp_bind, wp_lift]
  exact ⟨fun a ha => hf a ha w h, fun _ _ => hE w h⟩

theorem throw (hE : ∀ w, P w → E w) (e : ε) :
    Keeps P E (MonadExcept.throw e : Process ε M A V α) :=
  fun w h => hE w h

theorem act {a : A} (ha : ∀ w, P w → P (w.emit (.act a))) :
    Keeps P E (Process.act a : Process ε M A V _) :=
  fun w h => ha w h

theorem ite {c : Prop} [Decidable c] {m m' : Process ε M A V α} (hm : Keeps P E m)
    (hm' : Keeps P E m') : Keeps P E (if c then m else m') := by
  split
  · exact hm
  · exact hm'

end Keeps

end Process

end Kv
end HotStuffRs
